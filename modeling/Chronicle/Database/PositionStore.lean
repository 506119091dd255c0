import Chronicle.Database.EventStore
import Chronicle.Store.Positions

/-!
# Positions in a database

The last saved position of each subscriber is a document of its own, kept apart by a unique index on the subscriber. A
save looks for a document that is not ahead, and makes a new one if it finds none; where there is one that is ahead, the
index turns the new one away, and the position is stale.
-/

namespace Chronicle.Database

/-- A store of positions in a collection. -/
structure PositionStore where
  collection : Collection

/-- Whether an error says that there is a document with equal keys. -/
def isDuplicateKey : DatabaseError → Bool
  | .write code | .command code => code = duplicateKey
  | _ => false

namespace PositionStore

/-- The field of the subscriber's id. -/
def subscriberField : String := "subscriberId"

/-- The field of the token. -/
def tokenField : String := "resumeToken"

/-- The field of the sequence. -/
def sequenceField : String := "sequenceMarker"

/-- The field of the time of the last save. -/
def updatedField : String := "updatedAt"

/-- The position of a subscriber's document. -/
def positionOf (d : Document) : Except StoreError Position :=
  match Fields.get? tokenField d, Fields.get? sequenceField d with
  | none, _ => .error (.invalidToken .absent)
  | some token, some (.int64 n) =>
    if n < 0 then .error (.invalidToken .noSequence) else .ok ⟨token, n.toInt.toNat⟩
  | some _, _ => .error (.invalidToken .noSequence)

/-- Sees to the index that keeps subscribers apart. -/
def setUp (s : PositionStore) : Attempt Unit := .createIndex s.collection [(subscriberField, .int32 1)]

/-- What picks out a subscriber's document. -/
def filterOf (subscriber : String) : Document := [(subscriberField, .string subscriber)]

/-- The position of a subscriber. -/
def load (s : PositionStore) (subscriber : String) : Attempt (Option Position) := do
  match ← Attempt.findOne { collection := s.collection, filter := filterOf subscriber } none with
  | some d => ExceptT.mk (.done ((positionOf d).map some))
  | none => return none

/-- The outcome of a save, by the reply to it. -/
def outcomeOf (reply : Reply) : Except StoreError SaveOutcome :=
  match reply.written with
  | .ok _ => .ok .advanced
  | .error e => if isDuplicateKey e then .ok .ignoredStale else .error (.database e)

/-- Saves a subscriber's position at a time, in milliseconds, unless a later one is stored. -/
def save (s : PositionStore) (now : Int64) (subscriber : String) (p : Position) : Attempt SaveOutcome := do
  let some marker := Bson.int64OfNat? p.sequence | throw (.unsupported (.sequenceTooLarge p.sequence))
  let filter := filterOf subscriber ++ [(sequenceField, .document [("$lte", marker)])]
  let fields := [(tokenField, p.token), (sequenceField, marker), (updatedField, .date now)]
  let reply ← Attempt.ask ⟨.upsert s.collection filter fields, none⟩
  ExceptT.mk (.done (outcomeOf reply))

/-- Forgets a subscriber's position, and says whether there was one. -/
def delete (s : PositionStore) (subscriber : String) : Attempt Bool := do
  let reply ← Attempt.ask ⟨.delete s.collection (filterOf subscriber), none⟩
  return 0 < (← Attempt.ofDatabase reply.written)

end PositionStore

end Chronicle.Database
