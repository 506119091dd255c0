import Chronicle.Store.Basic

/-!
# Replies of a document database

What a database answers to a command. Each kind of command looks at the parts of a reply that concern it; a reply that
tells nothing is a success, without documents, that touched one document.
-/

namespace Chronicle.Database

/-- What a database answers. -/
structure Reply where
  /-- The number of the error with which the whole command failed. -/
  failure : Option Int := none
  documents : List Document := []
  /-- Whether the cursor has more documents. -/
  more : Bool := false
  /-- The number of documents written. -/
  touched : Nat := 1
  /-- The numbers of the errors of single writes. -/
  writeErrors : Option (List Int) := none
  /-- The number of the error with which a write was not acknowledged. -/
  concernError : Option Int := none

namespace Reply

/-- What the reply says of any command. -/
def accepted (r : Reply) : Except DatabaseError Unit :=
  match r.failure with
  | some code => .error (.command code)
  | none => .ok ()

/-- The number of documents that an insert stored. -/
def inserted (r : Reply) : Except DatabaseError Nat := do
  r.accepted
  if r.writeErrors.isSome || r.concernError.isSome then throw (.insertMany (r.writeErrors.getD []))
  return r.touched

/-- The number of documents that another write changed. -/
def written (r : Reply) : Except DatabaseError Nat := do
  r.accepted
  match r.writeErrors.getD [], r.concernError with
  | code :: _, _ => throw (.write code)
  | [], some code => throw (.writeConcern code)
  | [], none => return r.touched

/-- Whether the same insert need not be sent again: it failed, or stored some of its documents. -/
def endsInsert (r : Reply) : Bool :=
  match r.inserted with
  | .ok n => n ≠ 0
  | .error _ => true

/-- Whether nothing is to be expected of the cursor behind this reply. -/
def endsCursor (r : Reply) : Bool := r.failure.isSome || !r.more

/-- Whether the reply tells what comes next from a cursor: a failure, a document, or its end. -/
def settles (r : Reply) : Bool := r.endsCursor || !r.documents.isEmpty

end Reply

end Chronicle.Database
