import Chronicle.Codec.Basic

/-!
# Streams of events

A stream is a sequence of events, whose versions count from zero without gaps. A writer says at which version it expects
the stream to be; the version that the first new event gets, `nextVersion`, exists only if that is so. A subscriber's
position says how far it has come in the feed of all events.
-/

namespace Chronicle

/-- The version that a writer expects a stream to be at. -/
inductive ExpectedVersion where
  | noStream
  | exact (v : Nat)
  | any
deriving DecidableEq, Repr

/-- The expectation in words. -/
def ExpectedVersion.text : ExpectedVersion → String
  | .noStream => "no stream"
  | .exact v => s!"version {v}"
  | .any => "any version"

/-- Whether a stream whose last event has version `current` is as expected. -/
def ExpectedVersion.Admits : ExpectedVersion → Option Nat → Prop
  | .noStream, current => current = none
  | .exact v, current => current = some v
  | .any, _ => True

/-- How far a subscriber has come: a token that only the feed understands, and a number that orders the positions of one
feed. -/
structure Position where
  token : Bson
  sequence : Nat

/-- Why a token does not say where to go on. -/
inductive TokenProblem where
  | notAnIndex (found : Bson)
  | negativeIndex (n : Int64)
  | absent
  | noSequence

/-- What is wrong with a token, in words. -/
def TokenProblem.text : TokenProblem → String
  | .notAnIndex found => s!"expected an int64 log index, got {found.typeName}"
  | .negativeIndex n => s!"negative index {n}"
  | .absent => "stored position has no token"
  | .noSequence => "stored position has no valid sequence marker"

/-- What a store cannot do. -/
inductive Unsupported where
  | startBeforeWindow
  | limitTooLarge (limit : Nat)
  | sequenceTooLarge (sequence : Nat)
  | changeWithoutDocument
  | databaseNotBuiltIn
  | other (reason : String)

/-- What a store cannot do, in words. -/
def Unsupported.text : Unsupported → String
  | .startBeforeWindow =>
    "a change stream cannot start before the oplog window; start from now or from a saved position"
  | .limitTooLarge limit => s!"limit {limit} is too large"
  | .sequenceTooLarge sequence => s!"sequence marker {sequence} exceeds the storable range"
  | .changeWithoutDocument => "insert change without a full document"
  | .databaseNotBuiltIn => "MongoDB storage requires the 'mongodb' feature"
  | .other reason => reason

/-- Why the database did not do what it was asked. -/
inductive DatabaseError where
  /-- The whole command failed. -/
  | command (code : Int)
  /-- Some documents were not inserted. -/
  | insertMany (codes : List Int)
  /-- A write failed. -/
  | write (code : Int)
  /-- A write was not acknowledged as asked. -/
  | writeConcern (code : Int)
  /-- What was asked for makes no sense. -/
  | invalidArgument
  /-- A number is too large to be sent. -/
  | unsendable
  /-- A transaction cannot be had under these settings. -/
  | transaction
  /-- What the database sent cannot be understood. -/
  | malformedEvent
  /-- A change came without a token. -/
  | missingToken
deriving DecidableEq, Repr

/-- The number that the database gave the error. -/
def DatabaseError.code? : DatabaseError → Option Int
  | .command code | .write code | .writeConcern code => some code
  | .insertMany codes => codes.head?
  | _ => none

/-- Why a store did not do what it was asked. -/
inductive StoreError where
  | conflict (stream : String) (expected : ExpectedVersion)
  | encoding (e : EncodingError)
  | decoding (e : DecodingError)
  | emptyStreamId
  | invalidToken (problem : TokenProblem)
  | unsupported (what : Unsupported)
  | database (e : DatabaseError)

/-- What is wrong, in words. -/
def StoreError.message : StoreError → String
  | .conflict stream expected => s!"Concurrency conflict on stream '{stream}': expected {expected.text}"
  | .encoding e => s!"Encoding error: {e.message}"
  | .decoding e => s!"Decoding error: {e.message}"
  | .emptyStreamId => "Stream id must not be empty"
  | .invalidToken problem => s!"Invalid resume token: {problem.text}"
  | .unsupported what => s!"Unsupported operation: {what.text}"
  | .database e => "MongoDB error: " ++ ((e.code?.map fun (code : Int) => s!"code {code}").getD "no code")

/-- Whether another writer came first. -/
def StoreError.isConflict : StoreError → Bool
  | .conflict .. => true
  | _ => false

/-- What an append did: the version of the stream before and after it. -/
structure AppendResult where
  stream : String
  oldVersion : Option Nat
  newVersion : Option Nat
deriving DecidableEq, Repr

/-- What a read gives: some events of a stream in order, and the version of its last event. -/
structure StreamSlice where
  stream : String
  version : Option Nat
  events : List StreamEvent

/-- Refuses the stream id that no store can keep. -/
def checkStreamId (stream : String) : Except StoreError Unit :=
  if stream.isEmpty then .error .emptyStreamId else .ok ()

/-- The version behind the last one. -/
def versionAfter : Option Nat → Nat
  | none => 0
  | some c => c + 1

/-- The version of the first event to append to a stream whose last event has version `current`. -/
def nextVersion (stream : String) (expected : ExpectedVersion) (current : Option Nat) : Except StoreError Nat :=
  match expected, current with
  | .noStream, none => .ok 0
  | .noStream, some _ => .error (.conflict stream expected)
  | .exact v, some c => if v = c then .ok (v + 1) else .error (.conflict stream expected)
  | .exact _, none => .error (.conflict stream expected)
  | .any, current => .ok (versionAfter current)

/-- The version of a stream's last event once `count` events have been appended, the first with version `first`. -/
def lastVersion (first count : Nat) (current : Option Nat) : Option Nat :=
  if count = 0 then current else some (first + count - 1)

/-- A next version exists just if the stream is as expected, and is the one behind the last. -/
theorem nextVersion_eq_ok_iff {stream : String} {expected : ExpectedVersion} {current : Option Nat} {v : Nat} :
    nextVersion stream expected current = .ok v ↔ expected.Admits current ∧ v = versionAfter current := by
  cases expected <;> cases current <;> simp [nextVersion, ExpectedVersion.Admits, versionAfter] <;> grind

/-- Without a next version there is a conflict. -/
theorem nextVersion_eq_error_iff {stream : String} {expected : ExpectedVersion} {current : Option Nat} {e : StoreError} :
    nextVersion stream expected current = .error e ↔ ¬expected.Admits current ∧ e = .conflict stream expected := by
  cases expected <;> cases current <;> simp [nextVersion, ExpectedVersion.Admits] <;> grind

/-- The documents of events that get consecutive versions from `first` on, up to the first that has none. -/
def Codec.encodeAll (c : Codec) (stream : String) (first : Nat) : List Event → Except EncodingError (List Document)
  | [] => .ok []
  | e :: rest => do
    let d ← c.encode e stream (some first)
    return d :: (← c.encodeAll stream (first + 1) rest)

/-- The events of documents, up to the first that is none. -/
def Codec.decodeAll (c : Codec) : List Document → Except DecodingError (List StreamEvent)
  | [] => .ok []
  | d :: rest => do
    let e ← c.decode d
    return e :: (← c.decodeAll rest)

end Chronicle
