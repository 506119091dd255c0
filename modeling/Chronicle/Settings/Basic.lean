import Chronicle.Store.Basic
import Chronicle.Store.Config

/-!
# Settings

What a settings file and the environment can say: which storage to use and how to reach it, and how the store behaves.
-/

namespace Chronicle

/-- Which storage to use. -/
inductive StorageType where
  | memory
  | mongodb
deriving DecidableEq, Repr

/-- Where the database is and how its collections are called. -/
structure MongodbSettings where
  uri : String := "mongodb://localhost:27017/?replicaSet=rs0"
  database : String := "strand"
  events : String := "events"
  positions : String := "subscription_positions"
deriving DecidableEq, Repr

/-- Which storage to use and how to reach it. -/
structure StorageSettings where
  type : StorageType := .memory
  mongodb : MongodbSettings := {}
deriving DecidableEq, Repr

/-- How the store behaves. -/
structure StoreSettings where
  times : TimeRepresentation := .rfc3339String
  transactionalReads : Bool := true
  transaction : TransactionSettings := {}
  query : QueryOptions := {}

/-- All settings. -/
structure Settings where
  storage : StorageSettings := {}
  store : StoreSettings := {}

/-- The configuration of a store with these settings: options that a query has already win over the configured ones. -/
def StoreSettings.config (s : StoreSettings) : StoreConfig where
  times := s.times
  transaction := s.transaction
  consistency := .ofTransactional s.transactionalReads
  shapeQuery q := q.orElse s.query

/-- The codec of the storage that is set up, in a program that has a database client built in or not. -/
def Settings.codec (databaseBuiltIn : Bool) (s : Settings) : Except StoreError Codec :=
  match s.storage.type with
  | .memory => .ok (.json s.store.config.times)
  | .mongodb =>
    if databaseBuiltIn then .ok (.json s.store.config.times) else .error (.unsupported .databaseNotBuiltIn)

end Chronicle
