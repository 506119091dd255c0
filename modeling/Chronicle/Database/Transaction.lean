import Chronicle.Database.Dialogue

/-!
# Transactions

A transaction begins with its first command and ends with one that commits or aborts it. `Attempt.inTransaction` commits
what succeeded and aborts what failed; how the abort goes does not matter, because what is not committed is lost anyway.
-/

namespace Chronicle.Database

/-- How the end of a transaction is to be acknowledged, if its settings say so. -/
def acknowledgement (t : TransactionSettings) : Option Acknowledgement :=
  if t.writeConcern.isSome || t.journal.isSome then some ⟨t.writeConcern, t.journal⟩ else none

/-- Whether the end of a transaction is acknowledged at all. -/
def isAcknowledged (t : TransactionSettings) : Bool := t.writeConcern ≠ some (.nodes 0) || t.journal = some true

namespace Attempt

variable {α : Type}

/-- Carries out the commands of a transaction, and commits it or, if one of them failed, aborts it. -/
def inTransaction (t : TransactionSettings) (onCommit : DatabaseError → StoreError) (body : Attempt α) : Attempt α :=
  ExceptT.mk <|
    if isAcknowledged t then do
      match ← body.run with
      | .ok a =>
        let reply ← Dialogue.ask ⟨.commit (acknowledgement t) t.maxCommitTime, some .later⟩
        return (reply.written.mapError onCommit).map fun _ => a
      | .error e =>
        let _ ← Dialogue.ask ⟨.abort (acknowledgement t), some .later⟩
        return .error e
    else .done (.error (.database .transaction))

end Attempt

end Chronicle.Database
