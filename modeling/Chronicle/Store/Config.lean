import Chronicle.Codec.Basic

/-!
# Store configuration

How a store reads and writes: the form of its times, whether a read sees one snapshot, what its transactions ask of the
database, and how the query for a stream's events is shaped. Shaping can change how results are fetched, never which
results or in what order: filter and sort are no part of `QueryOptions`.
-/

namespace Chronicle

/-- Whether the two queries of a stream read share a snapshot. Without one, the version may lag behind the events. -/
inductive ReadConsistency where
  | transactional
  | independent
deriving DecidableEq, Repr

/-- Which data a transaction reads. -/
inductive ReadConcern where
  | localNode
  | majority
  | snapshot
deriving DecidableEq, Repr

/-- How many nodes have to acknowledge a write. -/
inductive WriteConcern where
  | majority
  | nodes (n : Nat)
deriving DecidableEq, Repr

/-- What transactions ask of the database. What is absent stays as the database has it. -/
structure TransactionSettings where
  readConcern : Option ReadConcern := none
  writeConcern : Option WriteConcern := none
  journal : Option Bool := none
  maxCommitTime : Option Nat := none
deriving DecidableEq, Repr

/-- How the results of a query are fetched. Times are in milliseconds. -/
structure QueryOptions where
  batchSize : Option Nat := none
  maxTime : Option Nat := none
  noCursorTimeout : Option Bool := none
deriving DecidableEq, Repr

/-- The options of `q`, and those of `defaults` where `q` has none. -/
def QueryOptions.orElse (q defaults : QueryOptions) : QueryOptions where
  batchSize := q.batchSize.or defaults.batchSize
  maxTime := q.maxTime.or defaults.maxTime
  noCursorTimeout := q.noCursorTimeout.or defaults.noCursorTimeout

/-- The configuration of a store. -/
structure StoreConfig where
  times : TimeRepresentation := .rfc3339String
  transaction : TransactionSettings := {}
  consistency : ReadConsistency := .transactional
  shapeQuery : QueryOptions → QueryOptions := id

/-- The consistency of reads that are transactional or not. -/
def ReadConsistency.ofTransactional (enabled : Bool) : ReadConsistency :=
  if enabled then .transactional else .independent

/-- Whether reads are transactional. -/
def StoreConfig.transactionalReads (c : StoreConfig) : Bool := c.consistency = .transactional

/-! ## Descriptions for diagnostics -/

/-- The name of a representation. -/
def TimeRepresentation.label : TimeRepresentation → String
  | .rfc3339String => "Rfc3339String"
  | .nativeDate => "NativeDate"

/-- The name of a consistency. -/
def ReadConsistency.label : ReadConsistency → String
  | .transactional => "Transactional"
  | .independent => "Independent"

/-- The name of a read concern. -/
def ReadConcern.label : ReadConcern → String
  | .localNode => "Local"
  | .majority => "Majority"
  | .snapshot => "Snapshot"

/-- The name of a write concern. -/
def WriteConcern.label : WriteConcern → String
  | .majority => "Majority"
  | .nodes n => s!"Nodes({n})"

/-- A value that may be absent. -/
def describeOption {α : Type} (describe : α → String) : Option α → String
  | none => "None"
  | some a => s!"Some({describe a})"

/-- A description of transaction settings. -/
def TransactionSettings.describe (t : TransactionSettings) : String :=
  "TransactionSettings \x7b read_concern: " ++ describeOption ReadConcern.label t.readConcern
    ++ ", write_concern: " ++ describeOption WriteConcern.label t.writeConcern
    ++ ", journal: " ++ describeOption toString t.journal
    ++ ", max_commit_time_ms: " ++ describeOption toString t.maxCommitTime ++ " \x7d"

/-- A description of a configuration. How it shapes queries cannot be shown. -/
def StoreConfig.describe (c : StoreConfig) : String :=
  "StoreConfig \x7b time_representation: " ++ c.times.label ++ ", transaction: " ++ c.transaction.describe
    ++ ", read_consistency: " ++ c.consistency.label ++ ", .. \x7d"

/-- A description of a codec. Its format cannot be shown. -/
def Codec.describe (c : Codec) : String :=
  "EventCodec \x7b time_representation: " ++ c.times.label ++ ", .. \x7d"

end Chronicle
