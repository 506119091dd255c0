import Chronicle.NameMap
import Chronicle.Store.Basic

/-!
# The event log

All events of all streams in memory: the documents in the order in which they were committed, and for each stream the
place of each version among them. `EventLog.append` stores a whole batch or nothing. A read asks two questions, for the
version and for the events; `EventLog.readSlice` takes the log as it is at either moment, so that writers may come in
between.
-/

namespace Chronicle

/-- The places of a stream's versions, in ascending order of the versions. -/
abbrev VersionIndex := List (Nat × Nat)

namespace VersionIndex

/-- Whether a version has a place. -/
def contains (index : VersionIndex) (v : Nat) : Bool := index.any (·.1 == v)

/-- Gives a version a place, instead of the one it had. -/
def insert (v place : Nat) : VersionIndex → VersionIndex
  | [] => [(v, place)]
  | (w, p) :: rest =>
    if v < w then (v, place) :: (w, p) :: rest
    else if v = w then (v, place) :: rest
    else (w, p) :: insert v place rest

/-- Gives `count` consecutive versions consecutive places. -/
def insertRange (first place : Nat) : Nat → VersionIndex → VersionIndex
  | 0, index => index
  | count + 1, index => insertRange (first + 1) (place + 1) count (index.insert first place)

/-- The greatest version. -/
def last? (index : VersionIndex) : Option Nat := index.getLast?.map Prod.fst

/-- The places, in order of the versions. -/
def places (index : VersionIndex) : List Nat := index.map Prod.snd

end VersionIndex

/-- Documents in the order in which they were committed, and where each stream's versions are among them. -/
structure EventLog where
  documents : List Document
  streams : NameMap VersionIndex

namespace EventLog

/-- The log without events. -/
def empty : EventLog := ⟨[], .empty⟩

/-- The number of events. -/
def size (log : EventLog) : Nat := log.documents.length

/-- The places of a stream's versions. -/
def index (log : EventLog) (stream : String) : VersionIndex := (log.streams.get? stream).getD []

/-- The version of a stream's last event. -/
def version (log : EventLog) (stream : String) : Option Nat := (log.index stream).last?

/-- A stream's documents in order of their versions, from the `skip`-th on and at most `limit` of them. -/
def slice (log : EventLog) (stream : String) (skip : Nat) (limit : Option Nat) : List Document :=
  let places := (log.index stream).places.drop skip
  let places := match limit with
    | some n => places.take n
    | none => places
  places.filterMap fun i => log.documents[i]?

/-- The log with a batch behind the others. -/
def extend (log : EventLog) (stream : String) (first : Nat) (batch : List Document) : EventLog where
  documents := log.documents ++ batch
  streams := log.streams.insert stream ((log.index stream).insertRange first log.size batch.length)

/-- Appends events to a stream: all of them under consecutive versions, or none. -/
def append (codec : Codec) (stream : String) (expected : ExpectedVersion) (events : List Event) (log : EventLog) :
    Except StoreError (AppendResult × EventLog) := do
  checkStreamId stream
  let current := log.version stream
  let first ← nextVersion stream expected current
  let batch ← (codec.encodeAll stream first events).mapError .encoding
  let result := ⟨stream, current, lastVersion first batch.length current⟩
  if batch.isEmpty then return (result, log)
  if (List.range' first batch.length).any ((log.index stream).contains ·) then throw (.conflict stream expected)
  return (result, log.extend stream first batch)

/-- Reads a part of a stream: its version from the log as it was `early`, its events from the log as it is `late`. -/
def readSlice (codec : Codec) (stream : String) (skip : Nat) (limit : Option Nat) (early late : EventLog) :
    Except StoreError StreamSlice := do
  checkStreamId stream
  let events ← (codec.decodeAll (late.slice stream skip limit)).mapError .decoding
  return ⟨stream, early.version stream, events⟩

/-- Reads a whole stream. -/
def read (codec : Codec) (stream : String) (early late : EventLog) : Except StoreError StreamSlice :=
  readSlice codec stream 0 none early late

/-- Whether a stream has an event. -/
def hasEvents (stream : String) (log : EventLog) : Except StoreError Bool := do
  checkStreamId stream
  return (log.version stream).isSome

end EventLog

end Chronicle
