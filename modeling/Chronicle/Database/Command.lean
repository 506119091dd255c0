import Chronicle.Bson.Basic
import Chronicle.Store.Basic
import Chronicle.Store.Config

/-!
# Commands to a document database

What a client sends: questions for documents, writes, and the two ways to end a transaction. A `Request` is a command
with its place in a transaction, if it belongs to one.
-/

namespace Chronicle.Database

/-- A collection of documents in a database. -/
structure Collection where
  database : String
  name : String
deriving DecidableEq, Repr

/-- A question for the documents of a collection. What is absent does not restrict them. -/
structure Query where
  collection : Collection
  filter : Document
  sort : Option Document := none
  projection : Option Document := none
  skip : Option Nat := none
  limit : Option Nat := none
  /-- Whether all documents have to come at once, so that no cursor stays open. -/
  single : Bool := false
  options : QueryOptions := {}

namespace Query

/-- The question for just one document. -/
def one (q : Query) : Query := { q with limit := some 1, single := true }

/-- The batch size to send. A batch that holds just as many documents as are wanted would leave the cursor open, so that
it is made larger by one. -/
def batchSize (q : Query) : Option Nat :=
  q.options.batchSize.map fun n => if q.limit = some n then n + 1 else n

/-- The batch size to ask for more documents with. Zero speaks of the first batch only. -/
def laterBatchSize (q : Query) : Option Nat := q.batchSize.filter (· ≠ 0)

/-- Refuses the numbers that no command can hold. -/
def check (q : Query) : Except DatabaseError Unit :=
  if q.options.batchSize.any (0x80000000 ≤ ·) then .error .invalidArgument
  else if q.skip.any (0x8000000000000000 ≤ ·) then .error .unsendable
  else .ok ()

end Query

/-- How the writes of a transaction are to be acknowledged. -/
structure Acknowledgement where
  nodes : Option WriteConcern
  journal : Option Bool
deriving DecidableEq, Repr

/-- A command. -/
inductive Command where
  /-- Sees to an index that keeps apart documents with equal keys. -/
  | createIndex (collection : Collection) (keys : Document)
  | find (q : Query)
  /-- Asks for the next batch of an open cursor. -/
  | getMore (collection : String) (batchSize : Option Nat)
  | insert (collection : Collection) (documents : List Document)
  /-- Sets fields of the one document that the filter finds, or of a new one if it finds none. -/
  | upsert (collection : Collection) (filter fields : Document)
  /-- Deletes one document that the filter finds. -/
  | delete (collection : Collection) (filter : Document)
  /-- Opens a cursor on the results of a pipeline. -/
  | aggregate (collection : Collection) (pipeline : List Document)
  | commit (acknowledgement : Option Acknowledgement) (maxTime : Option Nat)
  | abort (acknowledgement : Option Acknowledgement)

/-- The place of a command in a transaction. The first one says what the transaction reads. -/
inductive TransactionPart where
  | first (concern : Option ReadConcern)
  | later
deriving DecidableEq, Repr

/-- What a client sends. -/
structure Request where
  command : Command
  part : Option TransactionPart := none

end Chronicle.Database
