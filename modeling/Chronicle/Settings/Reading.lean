import Chronicle.Decimal.Shortest
import Chronicle.Settings.Basic
import Chronicle.Settings.Tree
import Chronicle.Text.Quoted

/-!
# Reading settings out of a tree

Values are taken in a lenient way: a flag may be a number or one of the words for yes and no, a number may be written as
text or have a fraction, and a text may be any scalar. A choice is a word in any case. A record is a table, or a list of
its fields in order; unknown names do not matter and absent ones have their defaults.
-/

namespace Chronicle.Settings

/-- What stood where something else was wanted. -/
inductive Found where
  | nothing
  | boolean (b : Bool)
  | integer (n : Int64)
  | unsigned (n : Nat)
  | string (s : String)
  | list
  | table
deriving DecidableEq, Repr

/-- What was wanted. -/
inductive Wanted where
  | boolean
  | integer
  | unsigned64
  | unsigned32
  | string
deriving DecidableEq, Repr

/-- Why there are no settings. -/
inductive SettingsError where
  | missingFile (name : String)
  | malformedFile (name : String)
  | wrongType (found : Found) (wanted : Wanted) (key : String) (origin : Option String)
  | notARecord (shown : String) (record : String)
  | unknownChoice (choice word : String)
  | notAChoice (choice : String)
deriving DecidableEq, Repr

/-- What stood there, in words. -/
def Found.text : Found → String
  | .nothing => "unit value"
  | .boolean b => s!"boolean \x60{b}\x60"
  | .integer n => s!"64-bit integer \x60{n}\x60"
  | .unsigned n => s!"64-bit unsigned integer \x60{n}\x60"
  | .string s => "string " ++ Text.quoted s
  | .list => "sequence"
  | .table => "map"

/-- What was wanted, in words. -/
def Wanted.text : Wanted → String
  | .boolean => "a boolean"
  | .integer => "an integer"
  | .unsigned64 => "an unsigned 64 bit or less integer"
  | .unsigned32 => "an unsigned 32 bit integer"
  | .string => "a string"

/-- What is wrong, in words; nothing for a file that is missing or malformed. -/
def SettingsError.message : SettingsError → String
  | .missingFile _ | .malformedFile _ => ""
  | .wrongType found wanted key origin =>
    let place := if key.isEmpty then "" else s!" for key \x60{key}\x60"
    let source := (origin.map (" in " ++ ·)).getD ""
    s!"invalid type: {found.text}, expected {wanted.text}" ++ place ++ source
  | .notARecord shown record => s!"invalid type: {shown}, expected struct {record}"
  | .unknownChoice choice word => s!"enum {choice} does not have variant constructor {word}"
  | .notAChoice choice =>
    s!"value of enum {choice} should be represented by either string or table with exactly one key"

/-- An error inside of a field: its key begins with the field's name. -/
def SettingsError.inField (name : String) : SettingsError → SettingsError
  | .wrongType found wanted key origin =>
    let dot := if key.isEmpty || key.front == '[' then "" else "."
    .wrongType found wanted (name ++ dot ++ key) origin
  | e => e

/-- An error inside of a list's item: its key begins with the item's place. -/
def SettingsError.inItem (i : Nat) : SettingsError → SettingsError
  | .wrongType found wanted key origin => .wrongType found wanted (s!"[{i}]" ++ key) origin
  | e => e

/-- What a setting is read by. -/
abbrev Reading (α : Type) := Tree → Except SettingsError α

/-! ## Scalars -/

/-- The number's text without an exponent. -/
def plainDouble (point : Bool) (x : Float) : String :=
  if x.isNaN then "NaN"
  else if x.isInf then (if x < 0 then "-inf" else "inf")
  else String.ofList (Decimal.Layout.text ⟨fun _ => true, point⟩ x)

/-- What a tree is, when something else was wanted. -/
def Tree.found : Tree → Found
  | .scalar (.boolean b) _ => .boolean b
  | .scalar (.integer n) _ => .integer n
  | .scalar (.string s) _ => .string s
  | .scalar _ _ => .nothing
  | .list .. => .list
  | .table .. => .table

/-- The words for yes. -/
def wordsForYes : List String := ["true", "on", "yes"]

/-- The words for no. -/
def wordsForNo : List String := ["false", "off", "no"]

/-- A flag. -/
def flag : Reading Bool
  | .scalar (.boolean b) _ => .ok b
  | .scalar (.integer n) _ => .ok (n != 0)
  | .scalar (.double x) _ => .ok (x != 0)
  | .scalar (.string s) origin =>
    let word := Text.lower s
    if word ∈ "1" :: wordsForYes then .ok true
    else if word ∈ "0" :: wordsForNo then .ok false
    else .error (.wrongType (.string word) .boolean "" origin)
  | t => .error (.wrongType t.found .boolean "" t.origin)

/-- A natural number of 64 bits. A fraction is rounded, a half away from zero, and what is out of range takes the
nearest end of the range. -/
def unsigned64 : Reading Nat
  | .scalar (.boolean b) _ => .ok b.toNat
  | .scalar (.integer n) origin =>
    if n < 0 then .error (.wrongType (.integer n) .unsigned64 "" origin) else .ok n.toInt.toNat
  | .scalar (.double x) _ => .ok x.round.toUInt64.toNat
  | .scalar (.string s) origin =>
    let word := Text.lower s
    if word ∈ wordsForYes then .ok 1
    else if word ∈ wordsForNo then .ok 0
    else
      match Text.unsigned64? s.toList with
      | some n => .ok n
      | none => .error (.wrongType (.string s) .integer "" origin)
  | t => .error (.wrongType t.found .integer "" t.origin)

/-- A natural number of 32 bits. -/
def unsigned32 : Reading Nat := fun t => do
  let n ← unsigned64 t
  if n < 0x100000000 then .ok n else .error (.wrongType (.unsigned n) .unsigned32 "" none)

/-- A text. -/
def text : Reading String
  | .scalar (.boolean b) _ => .ok (toString b)
  | .scalar (.integer n) _ => .ok (String.ofList (Text.signed n.toInt))
  | .scalar (.double x) _ => .ok (plainDouble false x)
  | .scalar (.string s) _ => .ok s
  | t => .error (.wrongType t.found .string "" t.origin)

/-- A value that may be null. -/
def nullable {α : Type} (read : Reading α) : Reading (Option α)
  | .scalar .null _ => .ok none
  | t => (read t).map some

/-! ## Choices -/

/-- One of several things under their names: the word itself, or a table of which it is the only name. What stands in the
table is for the thing to read. -/
def choice {α : Type} (name : String) (options : List (String × Reading α)) : Reading α := fun t =>
  match t with
  | .scalar (.string word) _ => pick word t
  | .table [(word, inner)] _ => pick word inner
  | _ => .error (.notAChoice name)
where
  /-- The option of a word. -/
  pick (word : String) (inner : Tree) : Except SettingsError α :=
    match options.find? fun o => Text.lower o.1 = Text.lower word with
    | some (_, read) => read inner
    | none => .error (.unknownChoice name word)

/-- A choice that has no parts. -/
def bare {α : Type} (a : α) : Reading α := fun _ => .ok a

/-! ## Records -/

/-- What a tree is, when a record was wanted. -/
def Scalar.shown : Scalar → String
  | .null => "unit value"
  | .boolean b => s!"boolean \x60{b}\x60"
  | .integer n => s!"integer \x60{n}\x60"
  | .double x => s!"floating point \x60{plainDouble true x}\x60"
  | .string s => "string " ++ Text.quoted s

/-- The fields of a record by their places, and under which names they stand in a table. -/
structure Parts where
  find : Nat → String → Option (Tree × (SettingsError → SettingsError))

/-- The parts of a tree that holds a record. -/
def parts (record : String) : Tree → Except SettingsError Parts
  | .scalar s _ => .error (.notARecord s.shown record)
  | .list items _ => .ok ⟨fun i _ => items[i]?.map (·, .inItem i)⟩
  | .table fs _ => .ok ⟨fun _ name => (Fields.get? name fs).map (·, .inField name)⟩

/-- A field of a record, which may be absent. -/
def Parts.field {α : Type} (p : Parts) (i : Nat) (name : String) (read : Reading α) (default : α) :
    Except SettingsError α :=
  match p.find i name with
  | some (t, locate) => (read t).mapError locate
  | none => .ok default

/-! ## Settings -/

/-- A storage type. -/
def storageType : Reading StorageType :=
  choice "StorageType" [("memory", bare .memory), ("mongodb", bare .mongodb)]

/-- A time representation. -/
def timeRepresentation : Reading TimeRepresentation :=
  choice "TimeRepresentation" [("rfc3339_string", bare .rfc3339String), ("native_date", bare .nativeDate)]

/-- A read concern. -/
def readConcern : Reading ReadConcern :=
  choice "ReadConcernLevel" [("local", bare .localNode), ("majority", bare .majority), ("snapshot", bare .snapshot)]

/-- A write concern. -/
def writeConcern : Reading WriteConcern :=
  choice "WriteAcknowledgment" [("majority", bare .majority), ("nodes", fun t => WriteConcern.nodes <$> unsigned32 t)]

/-- Transaction settings. -/
def transactionSettings : Reading TransactionSettings := fun t => do
  let p ← parts "TransactionSettings" t
  return {
    readConcern := ← p.field 0 "read_concern" (nullable readConcern) none
    writeConcern := ← p.field 1 "write_concern" (nullable writeConcern) none
    journal := ← p.field 2 "journal" (nullable flag) none
    maxCommitTime := ← p.field 3 "max_commit_time_ms" (nullable unsigned64) none }

/-- Query settings. -/
def querySettings : Reading QueryOptions := fun t => do
  let p ← parts "QuerySettings" t
  return {
    batchSize := ← p.field 0 "batch_size" (nullable unsigned32) none
    maxTime := ← p.field 1 "max_time_ms" (nullable unsigned64) none
    noCursorTimeout := ← p.field 2 "no_cursor_timeout" (nullable flag) none }

/-- Store settings. -/
def storeSettings : Reading StoreSettings := fun t => do
  let p ← parts "StoreSettings" t
  return {
    times := ← p.field 0 "time_representation" timeRepresentation .rfc3339String
    transactionalReads := ← p.field 1 "transactional_reads" flag true
    transaction := ← p.field 2 "transaction" transactionSettings {}
    query := ← p.field 3 "query" querySettings {} }

/-- Database settings. -/
def mongodbSettings : Reading MongodbSettings := fun t => do
  let p ← parts "MongodbConfig" t
  let default : MongodbSettings := {}
  return {
    uri := ← p.field 0 "uri" text default.uri
    database := ← p.field 1 "database" text default.database
    events := ← p.field 2 "events_collection" text default.events
    positions := ← p.field 3 "positions_collection" text default.positions }

/-- Storage settings. -/
def storageSettings : Reading StorageSettings := fun t => do
  let p ← parts "StorageConfig" t
  return {
    type := ← p.field 0 "type" storageType .memory
    mongodb := ← p.field 1 "mongodb" mongodbSettings {} }

/-- All settings. -/
def settings : Reading Settings := fun t => do
  let p ← parts "Settings" t
  return {
    storage := ← p.field 0 "storage" storageSettings {}
    store := ← p.field 1 "store" storeSettings {} }

end Chronicle.Settings
