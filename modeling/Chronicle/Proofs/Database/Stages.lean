import Chronicle.Database.EventStore
import Chronicle.Proofs.Database.Exchanges
import Chronicle.Proofs.Store.Atomic

/-!
# The stages of an append

An append looks up the version of its stream, plans its documents and its result for this version (`Codec.plan`), and
stores the documents. The log in memory follows the same plan (`EventLog.Gapless.append_eq_plan`). To a database the
stages are one dialogue (`EventStore.run_append`): the question for the version, then the inserts, and last the
request that commits or aborts.
-/

namespace Chronicle

/-! ## Plans -/

/-- The result and the documents of an append to a stream whose last event has version `current`. -/
def Codec.plan (c : Codec) (stream : String) (expected : ExpectedVersion) (events : List Event)
    (current : Option Nat) : Except StoreError (AppendResult × List Document) := do
  let first ← nextVersion stream expected current
  let batch ← (c.encodeAll stream first events).mapError .encoding
  return (⟨stream, current, lastVersion first batch.length current⟩, batch)

namespace Codec

variable {c : Codec} {stream : String} {expected : ExpectedVersion} {events : List Event} {current : Option Nat}
  {r : AppendResult} {batch : List Document}

theorem plan_eq_ok_iff : c.plan stream expected events current = .ok (r, batch) ↔
    expected.Admits current ∧ c.encodeAll stream (versionAfter current) events = .ok batch ∧
      r = ⟨stream, current, lastVersion (versionAfter current) batch.length current⟩ := by
  simp only [plan, Except.bind_eq_ok_iff, nextVersion_eq_ok_iff, Except.mapError_eq_ok_iff]
  constructor
  · rintro ⟨_, ⟨ha, rfl⟩, _, hb, h⟩
    cases h
    exact ⟨ha, hb, rfl⟩
  · rintro ⟨ha, hb, rfl⟩
    exact ⟨_, ⟨ha, rfl⟩, _, hb, rfl⟩

/-- There is a plan just if the stream is as expected and all events can be encoded. -/
theorem exists_plan_iff : (∃ r batch, c.plan stream expected events current = .ok (r, batch)) ↔
    expected.Admits current ∧ ∀ i, c.EncodesAt stream (versionAfter current) events i := by
  simp only [plan_eq_ok_iff, ← encodeAll_accepted_iff]
  constructor
  · rintro ⟨_, batch, ha, hb, -⟩
    exact ⟨ha, batch, hb⟩
  · rintro ⟨ha, batch, hb⟩
    exact ⟨_, batch, ha, hb, rfl⟩

/-- A plan fails with a conflict, if the stream is not as expected, and only then. -/
theorem isConflict_of_plan {e : StoreError} (h : c.plan stream expected events current = .error e) :
    (¬expected.Admits current ∧ e = .conflict stream expected) ∨
      (expected.Admits current ∧ e.isConflict = false) := by
  rcases Except.bind_eq_error_iff.1 h with h | ⟨first, hfirst, h⟩
  · exact .inl (nextVersion_eq_error_iff.1 h)
  · refine .inr ⟨(nextVersion_eq_ok_iff.1 hfirst).1, ?_⟩
    rcases Except.bind_eq_error_iff.1 h with h | ⟨_, -, h⟩
    · obtain ⟨problem, -, rfl⟩ := Except.mapError_eq_error_iff.1 h
      rfl
    · cases h

theorem plan_ne_nil (h : c.plan stream expected events current = .ok (r, batch)) : batch ≠ [] ↔ events ≠ [] := by
  have hlen := length_encodeAll (plan_eq_ok_iff.1 h).2.1
  rw [← List.length_pos_iff, ← List.length_pos_iff, hlen]

end Codec

namespace EventLog

variable {codec : Codec} {log : EventLog} {stream : String}

/-- The log with a batch behind the others, if there is something in it. -/
def adding (stream : String) (batch : List Document) (log : EventLog) : EventLog :=
  if batch.isEmpty then log else log.extend stream (log.count stream) batch

theorem Gapless.append_eq_plan (h : log.Gapless) (hs : stream ≠ "") (expected : ExpectedVersion)
    (events : List Event) :
    log.append codec stream expected events =
      (codec.plan stream expected events (log.version stream)).map fun p => (p.1, log.adding stream p.2) := by
  simp only [EventLog.append, checkStreamId_eq_ok_iff.2 hs, Except.ok_bind, Codec.plan]
  cases hn : nextVersion stream expected (log.version stream) with
  | error e => rfl
  | ok first =>
    obtain ⟨-, rfl⟩ := nextVersion_eq_ok_iff.1 hn
    simp only [Except.ok_bind, h.versionAfter]
    cases codec.encodeAll stream (log.count stream) events with
    | error e => rfl
    | ok batch =>
      simp only [Except.mapError_ok, Except.ok_bind, h.not_any_contains, adding]
      cases batch <;> rfl

/-- A stream can be at any version. -/
theorem exists_version_eq (stream : String) (current : Option Nat) :
    ∃ log : EventLog, log.Gapless ∧ log.version stream = current := by
  cases current with
  | none => exact ⟨empty, gapless_empty, rfl⟩
  | some v =>
    have h := gapless_empty.extend stream (List.replicate (v + 1) [])
    refine ⟨_, h, ?_⟩
    have hcount : empty.count stream = 0 := rfl
    rw [h.version, gapless_empty.count_extend, if_pos rfl, List.length_replicate, hcount, Nat.zero_add,
      if_neg (Nat.succ_ne_zero v), Nat.add_sub_cancel]

end EventLog

namespace Database

/-! ## What is sent -/

/-- The version that a reply tells, when the last event of a stream was asked for. -/
def versionTold (reply : Reply) : Except StoreError (Option Nat) := do
  reply.accepted.mapError .database
  match reply.documents.head? with
  | some d => (streamVersionOf d).mapError .decoding
  | none => return none

namespace EventStore

variable (s : EventStore) (stream : String) (expected : ExpectedVersion) (events : List Event)

/-- The question for the last event of a stream, with which a transaction begins. -/
def versionRequest : Request := ⟨.find (s.latest stream).one, some (.first s.config.transaction.readConcern)⟩

/-- The question for the next batch of the cursor. -/
def moreRequest : Request := ⟨.getMore s.collection.name none, some .later⟩

/-- The request to insert documents. -/
def insertRequest (documents : List Document) : Request := ⟨.insert s.collection documents, some .later⟩

/-- The request that ends a transaction well. -/
def commitRequest : Request :=
  ⟨.commit (acknowledgement s.config.transaction) s.config.transaction.maxCommitTime, some .later⟩

/-- The request that ends a transaction without effect. -/
def abortRequest : Request := ⟨.abort (acknowledgement s.config.transaction), some .later⟩

theorem commitRequest_ne_abortRequest : s.commitRequest ≠ s.abortRequest := by
  simp [commitRequest, abortRequest]

/-! ## What is done -/

/-- Commits what was stored. -/
def committing (r : AppendResult) : Dialogue (Except StoreError AppendResult) :=
  .send s.commitRequest fun reply => .done ((reply.written.mapError (conflictOr stream expected)).map fun _ => r)

/-- Aborts what failed. -/
def aborting (e : StoreError) : Dialogue (Except StoreError AppendResult) :=
  .send s.abortRequest fun _ => .done (.error e)

/-- Stores a batch, and ends the transaction. -/
def storing (r : AppendResult) (batch : List Document) : Dialogue (Except StoreError AppendResult) :=
  (Attempt.insertAll s.collection (some .later) batch).bind fun stored =>
    match stored with
    | .ok () => s.committing stream expected r
    | .error e => s.aborting (conflictOr stream expected e)

theorem storing_nil (r : AppendResult) : s.storing stream expected r [] = s.committing stream expected r := by
  rw [storing, Attempt.insertAll]
  rfl

theorem storing_cons (r : AppendResult) (d : Document) (rest : List Document) :
    s.storing stream expected r (d :: rest) =
      .sendUntil (s.insertRequest (d :: rest)) Reply.endsInsert fun replies =>
        match (replies.getLastD {}).inserted with
        | .ok n => s.storing stream expected r (rest.drop (n - 1))
        | .error e => s.aborting (conflictOr stream expected e) := by
  rw [storing, Attempt.insertAll]
  refine congrArg (Dialogue.sendUntil _ _) (funext fun replies => ?_)
  beta_reduce
  cases (replies.getLastD {}).inserted <;> rfl

/-- Goes on from what was told of the stream's version. -/
def proceeding (told : Except StoreError (Option Nat)) : Dialogue (Except StoreError AppendResult) :=
  match told >>= s.codec.plan stream expected events with
  | .ok (r, batch) => s.storing stream expected r batch
  | .error e => s.aborting e

theorem run_currentVersion (part : Option TransactionPart) :
    (s.currentVersion stream part).run =
      .send ⟨.find (s.latest stream).one, part⟩ fun reply =>
        if reply.settles then .done (versionTold reply)
        else .sendUntil ⟨.getMore s.collection.name none, part.map fun _ => .later⟩ Reply.settles fun replies =>
          .done (versionTold (replies.getLastD {})) := by
  have htold (reply : Reply) : ExceptT.bindCont (fun found => (match found with
        | some d => ExceptT.mk (.done ((streamVersionOf d).mapError .decoding))
        | none => return none : Attempt (Option Nat))) reply.firstDocument = Dialogue.done (versionTold reply) := by
    rw [Reply.firstDocument, versionTold]
    cases reply.accepted with
    | error e => rfl
    | ok _ => cases reply.documents.head? <;> rfl
  rw [currentVersion, Attempt.run_bind, Attempt.run_findOne, Dialogue.bind]
  refine congrArg (Dialogue.send _) (funext fun reply => ?_)
  split
  · exact htold reply
  · refine congrArg (Dialogue.sendUntil _ _) (funext fun replies => ?_)
    exact htold (replies.getLastD {})

/-- **Stages**: an append to a stream with an id asks for the stream's version and goes on from what it is told, if
its transactions are acknowledged. -/
theorem run_append (hs : isAcknowledged s.config.transaction = true) (hne : stream ≠ "") :
    (s.append stream expected events).run =
      (s.currentVersion stream (some (.first s.config.transaction.readConcern))).run.bind
        (s.proceeding stream expected events) := by
  rw [append, EventLog.checkStreamId_eq_ok_iff.2 hne, Attempt.run_bind, Attempt.run_mk, Dialogue.bind,
    Attempt.bindCont_ok, Attempt.inTransaction, if_pos hs, Attempt.run_mk]
  show ((s.appendWithin stream expected events).run).bind _ = _
  rw [appendWithin, Attempt.run_bind, Dialogue.bind_assoc]
  refine congrArg (Dialogue.bind _) (funext fun told => ?_)
  cases told with
  | error e => rfl
  | ok current =>
    rw [proceeding, Except.ok_bind, Codec.plan, Attempt.bindCont_ok, Attempt.run_bind, Attempt.run_mk, Dialogue.bind]
    cases nextVersion stream expected current with
    | error e => rfl
    | ok first =>
      rw [Except.ok_bind, Attempt.bindCont_ok, Attempt.run_bind, Attempt.run_mk, Dialogue.bind]
      cases (s.codec.encodeAll stream first events).mapError StoreError.encoding with
      | error e => rfl
      | ok batch =>
        rw [Attempt.bindCont_ok, Attempt.run_bind, Attempt.run_lift, Dialogue.bind_assoc, Dialogue.bind_assoc,
          Except.ok_bind]
        refine congrArg (Dialogue.bind _) (funext fun stored => ?_)
        cases stored with
        | error e => rfl
        | ok _ => rfl

/-- Without an acknowledgement nothing is sent. -/
theorem run_append_of_not_acknowledged (hs : isAcknowledged s.config.transaction = false) (hne : stream ≠ "") :
    (s.append stream expected events).run = .done (.error (.database .transaction)) := by
  rw [append, EventLog.checkStreamId_eq_ok_iff.2 hne, Attempt.run_bind, Attempt.run_mk, Dialogue.bind,
    Attempt.bindCont_ok, Attempt.inTransaction, if_neg (by rw [hs]; exact Bool.false_ne_true), Attempt.run_mk]

end EventStore

end Database

end Chronicle
