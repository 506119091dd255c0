import Chronicle.Proofs.Database.Paging
import Chronicle.Proofs.Database.Stages

/-!
# The course of an append

Whatever a database replies, an append takes one course (`EventStore.append_course`): it asks for the version of its
stream, inserts the documents that the log in memory would add to a stream at this version, and ends its transaction
with one request. It commits if every step before succeeded, and aborts otherwise; what it returns is the result that
the log would give, or the error of the step that failed. `Proceeds` and `Stores` list the ways that this may go.
-/

namespace Chronicle.Database

/-! ## Replies to writes -/

namespace Reply

variable {reply : Reply}

/-- The reply to an insert says that another writer came first. -/
def LostInsert (reply : Reply) : Prop :=
  reply.failure = some duplicateKey ∨ reply.failure = some writeConflict ∨
    reply.failure = none ∧ duplicateKey ∈ reply.writeErrors.getD []

/-- The reply to a commit says that another writer came first. -/
def LostCommit (reply : Reply) : Prop :=
  reply.failure = some duplicateKey ∨ reply.failure = some writeConflict ∨
    reply.failure = none ∧ (reply.writeErrors.getD []).head? = some duplicateKey

theorem lostInsert_iff : reply.LostInsert ↔ ∃ e, reply.inserted = .error e ∧ isConflict e = true := by
  rw [LostInsert, inserted, accepted]
  cases reply.failure with
  | some code => simp [isConflict]
  | none =>
    cases hw : reply.writeErrors with
    | none => cases reply.concernError <;> simp [isConflict]
    | some codes => simp [isConflict]

theorem lostCommit_iff : reply.LostCommit ↔ ∃ e, reply.written = .error e ∧ isConflict e = true := by
  rw [LostCommit, written, accepted]
  cases reply.failure with
  | some code => simp [isConflict]
  | none =>
    cases reply.writeErrors.getD [] with
    | nil => cases reply.concernError <;> simp [isConflict]
    | cons code codes => simp [isConflict]

/-- The reply that ends an insert is the first one that does, or tells nothing. -/
theorem endsInsert_find? (replies : List Reply) : ((replies.find? endsInsert).getD {}).endsInsert = true := by
  cases h : replies.find? endsInsert with
  | none => rfl
  | some reply => exact List.find?_some h

end Reply

theorem isConflict_conflictOr (stream : String) (expected : ExpectedVersion) (e : DatabaseError) :
    (conflictOr stream expected e).isConflict = isConflict e := by
  rw [conflictOr]
  cases isConflict e <;> rfl

/-- What replies tell of a stream's version: the first that settles says it. -/
def versionToldBy (replies : List Reply) : Except StoreError (Option Nat) :=
  versionTold ((replies.find? Reply.settles).getD {})

theorem isConflict_of_versionTold {reply : Reply} {e : StoreError} (h : versionTold reply = .error e) :
    e.isConflict = false := by
  rcases Except.bind_eq_error_iff.1 h with h | ⟨_, -, h⟩
  · obtain ⟨_, -, rfl⟩ := Except.mapError_eq_error_iff.1 h
    rfl
  · split at h
    · obtain ⟨_, -, rfl⟩ := Except.mapError_eq_error_iff.1 h
      rfl
    · cases h

namespace EventStore

variable {s : EventStore} {stream : String} {expected : ExpectedVersion} {events : List Event}
  {batch documents : List Document} {xs : List Exchange} {x : Exchange} {reply : Reply}

/-! ## Storing a batch -/

/-- Inserts of a batch with their replies, and how that went. What a reply does not count is inserted again. -/
inductive Stores (s : EventStore) : List Document → List Exchange → Except DatabaseError Unit → Prop
  | nothing : Stores s [] [] (.ok ())
  | refused {batch : List Document} {reply : Reply} {e : DatabaseError} : batch ≠ [] → reply.inserted = .error e →
    Stores s batch [(s.insertRequest batch, reply)] (.error e)
  | counted {batch : List Document} {reply : Reply} {n : Nat} {xs : List Exchange}
    {stored : Except DatabaseError Unit} : batch ≠ [] → reply.inserted = .ok n → Stores s (batch.drop n) xs stored →
    Stores s batch ((s.insertRequest batch, reply) :: xs) stored

namespace Stores

variable {stored : Except DatabaseError Unit}

/-- A batch of which nothing is counted is inserted until a reply says more. -/
theorem repeated (hne : batch ≠ []) (replies : List Reply)
    (h : Stores s batch ((s.insertRequest batch, (replies.find? Reply.endsInsert).getD {}) :: xs) stored) :
    Stores s batch ((Dialogue.splitAtStop Reply.endsInsert replies).1.map (s.insertRequest batch, ·) ++ xs)
      stored := by
  induction replies with
  | nil => exact h
  | cons r rest ih =>
    cases hr : r.endsInsert with
    | true =>
      rw [List.find?_cons_of_pos hr] at h
      rw [Dialogue.splitAtStop_of_stop hr]
      exact h
    | false =>
      rw [List.find?_cons_of_neg (by rw [hr]; exact Bool.false_ne_true)] at h
      rw [Dialogue.splitAtStop_of_not_stop hr]
      exact .counted hne (Reply.inserted_of_not_endsInsert hr) (ih h)

theorem ne_nil_iff (h : Stores s batch xs stored) : xs ≠ [] ↔ batch ≠ [] := by
  cases h with
  | nothing => simp
  | refused hne _ => simp [hne]
  | counted hne _ _ => simp [hne]

theorem eq_insertRequest (h : Stores s batch xs stored) (hx : x ∈ xs) :
    ∃ documents, x.1 = s.insertRequest documents := by
  induction h with
  | nothing => cases hx
  | refused _ _ =>
    cases List.mem_singleton.1 hx
    exact ⟨_, rfl⟩
  | counted _ _ _ ih =>
    rcases List.mem_cons.1 hx with rfl | hx
    · exact ⟨_, rfl⟩
    · exact ih hx

/-- A batch is stored just if no insert fails. -/
theorem ok_iff (h : Stores s batch xs stored) : stored = .ok () ↔ ∀ x ∈ xs, ∃ n, x.2.inserted = .ok n := by
  induction h with
  | nothing => simp
  | refused _ hr => simp [hr]
  | counted _ hr _ ih => simp [hr, ih]

/-- The error is that of the one insert that failed. -/
theorem error_iff (h : Stores s batch xs stored) {e : DatabaseError} :
    stored = .error e ↔ ∃ x ∈ xs, x.2.inserted = .error e := by
  induction h with
  | nothing => simp
  | refused _ hr => simp [hr, eq_comm]
  | counted _ hr _ ih => simp [hr, ih]

/-- After an insert there is another one just if the reply counted too few documents. -/
theorem further_iff {before after : List Exchange}
    (h : Stores s batch (before ++ (s.insertRequest documents, reply) :: after) stored) :
    after ≠ [] ↔ ∃ n, reply.inserted = .ok n ∧ n < documents.length := by
  generalize hxs : before ++ (s.insertRequest documents, reply) :: after = xs at h
  induction h generalizing before with
  | nothing => simp at hxs
  | refused hne hr =>
    cases before with
    | nil =>
      cases hxs
      simp [hr]
    | cons y before => simp at hxs
  | counted hne hr h ih =>
    cases before with
    | nil =>
      cases hxs
      simp [hr, h.ne_nil_iff]
    | cons y before => exact ih (List.cons.inj hxs).2

end Stores

theorem stores_insertAll (s : EventStore) (batch : List Document) (replies : List Reply) :
    Stores s batch ((Attempt.insertAll s.collection (some .later) batch).exchanges replies)
      ((Attempt.insertAll s.collection (some .later) batch).replay replies).result := by
  induction batch using Attempt.insertAll.induct generalizing replies with
  | case1 =>
    rw [Attempt.insertAll]
    exact .nothing
  | case2 d rest ih =>
    rw [Attempt.insertAll]
    simp only [Dialogue.exchanges, Dialogue.replay, Dialogue.getLastD_splitAtStop]
    refine .repeated (List.cons_ne_nil d rest) replies ?_
    cases hr : ((replies.find? Reply.endsInsert).getD {}).inserted with
    | error e => exact .refused (List.cons_ne_nil d rest) hr
    | ok n =>
      have hn : n ≠ 0 := by
        have hends := Reply.endsInsert_find? replies
        simpa [Reply.endsInsert, hr] using hends
      obtain ⟨n, rfl⟩ := Nat.exists_eq_succ_of_ne_zero hn
      exact .counted (List.cons_ne_nil d rest) hr (ih (n + 1) _)

/-! ## Behind the question -/

/-- What is sent once the version of the stream was told, or why it was not: inserts and one last request, with their
replies. And what is returned in the end. -/
inductive Proceeds (s : EventStore) (stream : String) (expected : ExpectedVersion) (events : List Event)
    (told : Except StoreError (Option Nat)) :
    List Exchange → Exchange → Except StoreError AppendResult → Prop
  | stopped {e : StoreError} {reply : Reply} : told >>= s.codec.plan stream expected events = .error e →
    Proceeds s stream expected events told [] (s.abortRequest, reply) (.error e)
  | refused {r : AppendResult} {batch : List Document} {inserts : List Exchange} {e : DatabaseError}
    {reply : Reply} : told >>= s.codec.plan stream expected events = .ok (r, batch) →
    Stores s batch inserts (.error e) →
    Proceeds s stream expected events told inserts (s.abortRequest, reply) (.error (conflictOr stream expected e))
  | stored {r : AppendResult} {batch : List Document} {inserts : List Exchange} {reply : Reply} :
    told >>= s.codec.plan stream expected events = .ok (r, batch) → Stores s batch inserts (.ok ()) →
    Proceeds s stream expected events told inserts (s.commitRequest, reply)
      ((reply.written.mapError (conflictOr stream expected)).map fun _ => r)

theorem exists_proceeds (s : EventStore) (stream : String) (expected : ExpectedVersion) (events : List Event)
    (told : Except StoreError (Option Nat)) (replies : List Reply) :
    ∃ inserts ending, (s.proceeding stream expected events told).exchanges replies = inserts ++ [ending] ∧
      Proceeds s stream expected events told inserts ending
        ((s.proceeding stream expected events told).replay replies).result := by
  rw [proceeding]
  cases hplan : told >>= s.codec.plan stream expected events with
  | error e => exact ⟨[], _, rfl, .stopped hplan⟩
  | ok p =>
    obtain ⟨r, batch⟩ := p
    have hstores := stores_insertAll s batch replies
    simp only [storing, Dialogue.exchanges_bind, Dialogue.result_bind]
    cases hstored : ((Attempt.insertAll s.collection (some .later) batch).replay replies).result with
    | ok _ =>
      rw [hstored] at hstores
      exact ⟨_, _, rfl, .stored hplan hstores⟩
    | error e =>
      rw [hstored] at hstores
      exact ⟨_, _, rfl, .refused hplan hstores⟩

/-- What is sent to ask for the version of a stream, with the replies. -/
def Asks (s : EventStore) (stream : String) (replies : List Reply) (asked : List Exchange) : Prop :=
  ∃ first more, (Dialogue.splitAtStop Reply.settles replies).1 = first :: more ∧
    asked = (s.versionRequest stream, first) :: more.map (s.moreRequest, ·)

theorem asks_currentVersion (s : EventStore) (stream : String) (replies : List Reply) :
    Asks s stream replies
        ((s.currentVersion stream (some (.first s.config.transaction.readConcern))).run.exchanges replies) ∧
      ((s.currentVersion stream (some (.first s.config.transaction.readConcern))).run.replay replies).result =
        versionToldBy replies := by
  rw [run_currentVersion, Asks, versionToldBy]
  cases replies with
  | nil => exact ⟨⟨{}, [], rfl, rfl⟩, rfl⟩
  | cons first rest =>
    cases hf : first.settles with
    | true =>
      rw [Dialogue.splitAtStop_of_stop hf, List.find?_cons_of_pos hf]
      simp only [Dialogue.exchanges, Dialogue.replay, List.headD_cons, hf, reduceIte]
      exact ⟨⟨first, [], rfl, rfl⟩, rfl⟩
    | false =>
      rw [Dialogue.splitAtStop_of_not_stop hf, List.find?_cons_of_neg (by rw [hf]; exact Bool.false_ne_true)]
      simp only [Dialogue.exchanges, Dialogue.replay, List.headD_cons, List.tail_cons, hf, Bool.false_eq_true,
        reduceIte, Dialogue.getLastD_splitAtStop, List.append_nil]
      exact ⟨⟨first, _, rfl, rfl⟩, trivial⟩

/-! ## From the first request to the last -/

/-- What an append does when it gets these replies: it asks for the version, inserts, and ends its transaction. -/
structure Course (s : EventStore) (stream : String) (expected : ExpectedVersion) (events : List Event)
    (replies : List Reply) (asked inserts : List Exchange) (ending : Exchange)
    (t : Dialogue.Transcript (Except StoreError AppendResult)) : Prop where
  sent : t.sent = (asked ++ inserts ++ [ending]).map Prod.fst
  /-- Each request gets the next reply, and one that tells nothing when there are no more. -/
  replied : ∀ (i : Nat) (x : Exchange), (asked ++ inserts ++ [ending])[i]? = some x → x.2 = replies[i]?.getD {}
  /-- The version is asked for with one query, and with more requests as long as the replies leave its cursor open and
  tell nothing. -/
  asks : Asks s stream replies asked
  /-- A log in memory can have the stream at the version that was told, and then it would do as planned. -/
  memory : ∀ current, versionToldBy replies = .ok current →
    (∃ log : EventLog, log.Gapless ∧ log.version stream = current) ∧
      ∀ log : EventLog, log.Gapless → log.version stream = current →
        log.append s.codec stream expected events =
          (s.codec.plan stream expected events current).map fun p => (p.1, log.adding stream p.2)
  /-- The documents of the plan are inserted, all at once; -/
  stores : ∀ current r batch, versionToldBy replies = .ok current →
    s.codec.plan stream expected events current = .ok (r, batch) → ∃ stored, Stores s batch inserts stored
  /-- just if a version is told, the stream is as expected, and there are events and all can be encoded. -/
  inserts_iff : inserts ≠ [] ↔ ∃ current, versionToldBy replies = .ok current ∧ expected.Admits current ∧
    (∀ i, s.codec.EncodesAt stream (versionAfter current) events i) ∧ events ≠ []
  /-- There is another insert just if a reply counts fewer documents than there were. -/
  further_iff : ∀ before documents reply after, inserts = before ++ (s.insertRequest documents, reply) :: after →
    (after ≠ [] ↔ ∃ n, reply.inserted = .ok n ∧ n < documents.length)
  /-- The last request commits or aborts, and it is the only one. -/
  ends : (ending.1 = s.commitRequest ∨ ending.1 = s.abortRequest) ∧
    ∀ x ∈ asked ++ inserts, x.1 ≠ s.commitRequest ∧ x.1 ≠ s.abortRequest
  /-- It commits just if every step before succeeded. -/
  commit_iff : ending.1 = s.commitRequest ↔
    (∃ current, versionToldBy replies = .ok current ∧ expected.Admits current ∧
      ∀ i, s.codec.EncodesAt stream (versionAfter current) events i) ∧ ∀ x ∈ inserts, ∃ n, x.2.inserted = .ok n
  /-- The append succeeds just if the commit is acknowledged, and then as planned. -/
  ok_iff : ∀ r, t.result = .ok r ↔ ending.1 = s.commitRequest ∧ (∃ n, ending.2.written = .ok n) ∧
    ∃ current batch, versionToldBy replies = .ok current ∧
      s.codec.plan stream expected events current = .ok (r, batch)
  /-- The error of the step that failed is returned, whatever the reply to the abort. -/
  error_iff : ∀ e, t.result = .error e ↔
    versionToldBy replies >>= s.codec.plan stream expected events = .error e ∨
      (∃ x ∈ inserts, ∃ e', x.2.inserted = .error e' ∧ e = conflictOr stream expected e') ∨
      (ending.1 = s.commitRequest ∧ ∃ e', ending.2.written = .error e' ∧ e = conflictOr stream expected e')
  /-- It is a conflict just if the stream is not as expected, or a reply says that another writer came first. -/
  conflict_iff : (∃ e, t.result = .error e ∧ e.isConflict = true) ↔
    (∃ current, versionToldBy replies = .ok current ∧ ¬expected.Admits current) ∨
      (∃ x ∈ inserts, x.2.LostInsert) ∨ (ending.1 = s.commitRequest ∧ ending.2.LostCommit)

namespace Proceeds

variable {told : Except StoreError (Option Nat)} {inserts : List Exchange} {ending : Exchange}
  {result : Except StoreError AppendResult} {current : Option Nat} {r : AppendResult}

theorem ending_eq (h : Proceeds s stream expected events told inserts ending result) :
    ending.1 = s.commitRequest ∨ ending.1 = s.abortRequest := by
  cases h with
  | stopped _ => exact .inr rfl
  | refused _ _ => exact .inr rfl
  | stored _ _ => exact .inl rfl

theorem eq_insertRequest (h : Proceeds s stream expected events told inserts ending result) (hx : x ∈ inserts) :
    ∃ documents, x.1 = s.insertRequest documents := by
  cases h with
  | stopped _ => cases hx
  | refused _ hstores => exact hstores.eq_insertRequest hx
  | stored _ hstores => exact hstores.eq_insertRequest hx

/-- There is something to insert just if there is a plan with documents. -/
theorem inserts_iff (h : Proceeds s stream expected events told inserts ending result) :
    inserts ≠ [] ↔ ∃ r batch, told >>= s.codec.plan stream expected events = .ok (r, batch) ∧ batch ≠ [] := by
  cases h with
  | stopped hplan => simp [hplan]
  | refused hplan hstores => simp [hplan, hstores.ne_nil_iff]
  | stored hplan hstores => simp [hplan, hstores.ne_nil_iff]

/-- The documents of a plan are stored. -/
theorem stores (h : Proceeds s stream expected events told inserts ending result)
    (hp : told >>= s.codec.plan stream expected events = .ok (r, batch)) :
    ∃ stored, Stores s batch inserts stored := by
  cases h with
  | stopped hplan =>
    rw [hplan] at hp
    cases hp
  | refused hplan hstores =>
    cases hplan.symm.trans hp
    exact ⟨_, hstores⟩
  | stored hplan hstores =>
    cases hplan.symm.trans hp
    exact ⟨_, hstores⟩

theorem further_iff (h : Proceeds s stream expected events told inserts ending result) {before after : List Exchange}
    (hx : inserts = before ++ (s.insertRequest documents, reply) :: after) :
    after ≠ [] ↔ ∃ n, reply.inserted = .ok n ∧ n < documents.length := by
  subst hx
  cases hr : told >>= s.codec.plan stream expected events with
  | error e =>
    have hne : ¬∃ r batch, told >>= s.codec.plan stream expected events = .ok (r, batch) ∧ batch ≠ [] := by simp [hr]
    exact absurd (h.inserts_iff.1 (by simp)) hne
  | ok p =>
    obtain ⟨r, batch⟩ := p
    obtain ⟨stored, hstores⟩ := h.stores hr
    exact hstores.further_iff

theorem commit_iff (h : Proceeds s stream expected events told inserts ending result) :
    ending.1 = s.commitRequest ↔ (∃ r batch, told >>= s.codec.plan stream expected events = .ok (r, batch)) ∧
      ∀ x ∈ inserts, ∃ n, x.2.inserted = .ok n := by
  have hne := s.commitRequest_ne_abortRequest.symm
  cases h with
  | stopped hplan => simp [hplan, hne]
  | refused hplan hstores =>
    rw [← hstores.ok_iff]
    simp [hne]
  | stored hplan hstores =>
    rw [← hstores.ok_iff]
    simp [hplan]

theorem ok_iff (h : Proceeds s stream expected events told inserts ending result) :
    result = .ok r ↔ ending.1 = s.commitRequest ∧ (∃ n, ending.2.written = .ok n) ∧
      ∃ batch, told >>= s.codec.plan stream expected events = .ok (r, batch) := by
  have hne := s.commitRequest_ne_abortRequest.symm
  cases h with
  | stopped hplan => simp [hplan]
  | refused hplan hstores => simp [hne]
  | @stored _ _ _ reply hplan hstores =>
    rw [hplan]
    cases reply.written <;> simp [Except.map]

/-- An error is that of the plan, of an insert or of the commit. -/
theorem error_iff (h : Proceeds s stream expected events told inserts ending result) {e : StoreError} :
    result = .error e ↔ told >>= s.codec.plan stream expected events = .error e ∨
      (∃ x ∈ inserts, ∃ e', x.2.inserted = .error e' ∧ e = conflictOr stream expected e') ∨
      (ending.1 = s.commitRequest ∧ ∃ e', ending.2.written = .error e' ∧ e = conflictOr stream expected e') := by
  have hne := s.commitRequest_ne_abortRequest.symm
  cases h with
  | stopped hplan => simp [hplan, hne]
  | @refused _ _ _ e' _ hplan hstores =>
    have hinsert : (∃ x ∈ inserts, ∃ e', x.2.inserted = .error e' ∧ e = conflictOr stream expected e') ↔
        e = conflictOr stream expected e' := by
      constructor
      · rintro ⟨x, hx, e'', hr, rfl⟩
        cases hstores.error_iff.2 ⟨x, hx, hr⟩
        rfl
      · rintro rfl
        obtain ⟨x, hx, hr⟩ := hstores.error_iff.1 rfl
        exact ⟨x, hx, e', hr, rfl⟩
    rw [hinsert, hplan]
    simp [hne, eq_comm]
  | @stored _ _ _ reply hplan hstores =>
    have hinsert : ¬∃ x ∈ inserts, ∃ e', x.2.inserted = .error e' ∧ e = conflictOr stream expected e' := by
      rintro ⟨x, hx, e', hr, -⟩
      cases hstores.error_iff.2 ⟨x, hx, hr⟩
    rw [hplan, eq_false hinsert]
    cases hw : reply.written with
    | ok n => simp [Except.map]
    | error e' => simp [Except.map, eq_comm]

theorem conflict_iff (h : Proceeds s stream expected events told inserts ending result)
    (htold : ∀ e, told = .error e → e.isConflict = false) :
    (∃ e, result = .error e ∧ e.isConflict = true) ↔
      (∃ current, told = .ok current ∧ ¬expected.Admits current) ∨
        (∃ x ∈ inserts, x.2.LostInsert) ∨ (ending.1 = s.commitRequest ∧ ending.2.LostCommit) := by
  have hplan : (∃ e, told >>= s.codec.plan stream expected events = .error e ∧ e.isConflict = true) ↔
      ∃ current, told = .ok current ∧ ¬expected.Admits current := by
    constructor
    · rintro ⟨e, he, hc⟩
      rcases Except.bind_eq_error_iff.1 he with he | ⟨current, hcurrent, he⟩
      · rw [htold e he] at hc
        cases hc
      · rcases Codec.isConflict_of_plan he with ⟨hadmits, -⟩ | ⟨-, hnot⟩
        · exact ⟨current, hcurrent, hadmits⟩
        · rw [hnot] at hc
          cases hc
    · rintro ⟨current, rfl, hadmits⟩
      have hnext : nextVersion stream expected current = .error (.conflict stream expected) :=
        nextVersion_eq_error_iff.2 ⟨hadmits, rfl⟩
      refine ⟨.conflict stream expected, ?_, rfl⟩
      rw [Except.ok_bind, Codec.plan, hnext]
      rfl
  simp only [h.error_iff, ← hplan, Reply.lostInsert_iff, Reply.lostCommit_iff, or_and_right, exists_or]
  refine or_congr Iff.rfl (or_congr ?_ ?_)
  · constructor
    · rintro ⟨_, ⟨x, hx, e', hr, rfl⟩, hc⟩
      exact ⟨x, hx, e', hr, isConflict_conflictOr stream expected e' ▸ hc⟩
    · rintro ⟨x, hx, e', hr, hc⟩
      exact ⟨_, ⟨x, hx, e', hr, rfl⟩, (isConflict_conflictOr stream expected e').trans hc⟩
  · constructor
    · rintro ⟨_, ⟨hcommit, e', hr, rfl⟩, hc⟩
      exact ⟨hcommit, e', hr, isConflict_conflictOr stream expected e' ▸ hc⟩
    · rintro ⟨hcommit, e', hr, hc⟩
      exact ⟨_, ⟨hcommit, e', hr, rfl⟩, (isConflict_conflictOr stream expected e').trans hc⟩

end Proceeds

theorem exists_plan_told_iff {told : Except StoreError (Option Nat)} :
    (∃ r batch, told >>= s.codec.plan stream expected events = .ok (r, batch)) ↔
      ∃ current, told = .ok current ∧ expected.Admits current ∧
        ∀ i, s.codec.EncodesAt stream (versionAfter current) events i := by
  simp only [Except.bind_eq_ok_iff, ← Codec.exists_plan_iff]
  constructor
  · rintro ⟨r, batch, current, htold, hplan⟩
    exact ⟨current, htold, r, batch, hplan⟩
  · rintro ⟨current, htold, r, batch, hplan⟩
    exact ⟨r, batch, current, htold, hplan⟩

theorem exists_plan_ne_nil_iff {told : Except StoreError (Option Nat)} :
    (∃ r batch, told >>= s.codec.plan stream expected events = .ok (r, batch) ∧ batch ≠ []) ↔
      ∃ current, told = .ok current ∧ expected.Admits current ∧
        (∀ i, s.codec.EncodesAt stream (versionAfter current) events i) ∧ events ≠ [] := by
  have hne : ∀ r batch, told >>= s.codec.plan stream expected events = .ok (r, batch) →
      (batch ≠ [] ↔ events ≠ []) := by
    intro r batch h
    obtain ⟨current, -, hplan⟩ := Except.bind_eq_ok_iff.1 h
    exact Codec.plan_ne_nil hplan
  constructor
  · rintro ⟨r, batch, h, hbatch⟩
    obtain ⟨current, htold, hadmits, hencodes⟩ := exists_plan_told_iff.1 ⟨r, batch, h⟩
    exact ⟨current, htold, hadmits, hencodes, (hne r batch h).1 hbatch⟩
  · rintro ⟨current, htold, hadmits, hencodes, hevents⟩
    obtain ⟨r, batch, h⟩ := exists_plan_told_iff.2 ⟨current, htold, hadmits, hencodes⟩
    exact ⟨r, batch, h, (hne r batch h).2 hevents⟩

/-- No question ends a transaction. -/
theorem Asks.ne {replies : List Reply} {asked : List Exchange} (h : Asks s stream replies asked) (hx : x ∈ asked) :
    x.1 ≠ s.commitRequest ∧ x.1 ≠ s.abortRequest := by
  obtain ⟨first, more, -, rfl⟩ := h
  rcases List.mem_cons.1 hx with rfl | hx
  · simp [versionRequest, commitRequest, abortRequest]
  · obtain ⟨reply, -, rfl⟩ := List.mem_map.1 hx
    simp [moreRequest, commitRequest, abortRequest]

/-- What an append exchanges, and with which result. -/
theorem exists_exchanges (hack : isAcknowledged s.config.transaction = true) (hne : stream ≠ "")
    (expected : ExpectedVersion) (events : List Event) (replies : List Reply) :
    ∃ asked inserts ending,
      (s.append stream expected events).run.exchanges replies = asked ++ inserts ++ [ending] ∧
        Asks s stream replies asked ∧
        Proceeds s stream expected events (versionToldBy replies) inserts ending
          ((s.append stream expected events).run.replay replies).result := by
  obtain ⟨hasks, htold⟩ := asks_currentVersion s stream replies
  rw [run_append s stream expected events hack hne, Dialogue.exchanges_bind, Dialogue.result_bind, htold]
  obtain ⟨inserts, ending, hx, h⟩ := exists_proceeds s stream expected events (versionToldBy replies)
    ((s.currentVersion stream (some (.first s.config.transaction.readConcern))).run.replay replies).unused
  rw [hx, ← List.append_assoc]
  exact ⟨_, inserts, ending, rfl, hasks, h⟩

/-- **The course of an append**: whatever the replies, an append asks for the version of its stream, inserts the
documents that the log in memory would add at this version, and commits if all went well, or else aborts. If the ends
of transactions are not acknowledged, it sends nothing. -/
theorem append_course (s : EventStore) (hne : stream ≠ "") (expected : ExpectedVersion) (events : List Event)
    (replies : List Reply) :
    if isAcknowledged s.config.transaction then
      ∃ asked inserts ending, Course s stream expected events replies asked inserts ending
        ((s.append stream expected events).run.replay replies)
    else (s.append stream expected events).run.replay replies = ⟨.error (.database .transaction), [], replies⟩ := by
  split
  case isFalse hack =>
    rw [run_append_of_not_acknowledged s stream expected events (by simpa using hack) hne]
    rfl
  case isTrue hack =>
    obtain ⟨asked, inserts, ending, hx, hasks, h⟩ := exists_exchanges hack hne expected events replies
    refine ⟨asked, inserts, ending, ?_⟩
    constructor
    case sent => rw [← Dialogue.map_fst_exchanges, hx]
    case replied =>
      intro i x hi
      exact Dialogue.snd_of_getElem?_exchanges (hx ▸ hi)
    case asks => exact hasks
    case memory =>
      refine fun current _ => ⟨EventLog.exists_version_eq stream current, ?_⟩
      rintro log hlog rfl
      exact hlog.append_eq_plan hne expected events
    case stores =>
      intro current r batch hcurrent hplan
      exact h.stores (Except.bind_eq_ok_iff.2 ⟨current, hcurrent, hplan⟩)
    case inserts_iff => rw [h.inserts_iff, exists_plan_ne_nil_iff]
    case further_iff =>
      intro before documents reply after hinserts
      exact h.further_iff hinserts
    case ends =>
      refine ⟨h.ending_eq, fun x hx => ?_⟩
      rcases List.mem_append.1 hx with hx | hx
      · exact hasks.ne hx
      · obtain ⟨documents, hd⟩ := h.eq_insertRequest hx
        simp [hd, insertRequest, commitRequest, abortRequest]
    case commit_iff => rw [h.commit_iff, exists_plan_told_iff]
    case ok_iff =>
      intro r
      simp only [h.ok_iff, Except.bind_eq_ok_iff]
      exact and_congr_right fun _ => and_congr_right fun _ => exists_comm
    case error_iff => exact fun e => h.error_iff
    case conflict_iff => exact h.conflict_iff fun e he => isConflict_of_versionTold he

theorem append_course_reading :
    ("meter-4" ≠ "" ∧ isAcknowledged plainStore.config.transaction = true) ∧
      ∃ asked inserts ending, Course plainStore "meter-4" .noStream [Codec.reading] [] asked inserts ending
        ((plainStore.append "meter-4" .noStream [Codec.reading]).run.replay []) := by
  have hne : "meter-4" ≠ "" := by decide
  exact ⟨⟨hne, rfl⟩, append_course plainStore hne .noStream [Codec.reading] []⟩

/-! ## Replies that a server hardly gives -/

/-- An append goes on to store its batch when the first reply tells a version and there is a plan for it. -/
theorem replay_append {current : Option Nat} {r : AppendResult} (hack : isAcknowledged s.config.transaction = true)
    (hne : stream ≠ "") (hs : reply.settles = true) (ht : versionTold reply = .ok current)
    (hplan : s.codec.plan stream expected events current = .ok (r, batch)) (replies : List Reply) :
    (s.append stream expected events).run.replay (reply :: replies) =
      let t := (s.storing stream expected r batch).replay replies
      ⟨t.result, s.versionRequest stream :: t.sent, t.unused⟩ := by
  rw [run_append _ _ _ _ hack hne, run_currentVersion, Dialogue.bind, Dialogue.replay, List.headD_cons, if_pos hs,
    Dialogue.bind, proceeding, ht, Except.ok_bind, hplan]
  rfl

/-- The reply to a write that another one was there before. -/
def taken : Reply := { writeErrors := some [duplicateKey] }

theorem replay_append_nothing :
    (plainStore.append "meter-4" .any []).run.replay [{}, taken] =
      ⟨.error (.conflict "meter-4" .any), [plainStore.versionRequest "meter-4", plainStore.commitRequest], []⟩ := by
  rw [replay_append rfl (by decide) rfl rfl rfl, storing_nil]
  rfl

theorem replay_append_readings :
    ∃ d d', ((plainStore.append "meter-4" .any [Codec.reading, Codec.reading]).run.replay [{}]).sent =
      [plainStore.versionRequest "meter-4", plainStore.insertRequest [d, d'], plainStore.insertRequest [d'],
        plainStore.commitRequest] := by
  have he : ∀ e ∈ [Codec.reading, Codec.reading], e.Storable .rfc3339String ∧ e.DoublesReadBack := by
    intro e he
    have h : e = Codec.reading := by simpa using he
    exact h ▸ ⟨Codec.storable_reading, Codec.doublesReadBack_reading⟩
  obtain ⟨batch, hbatch⟩ := Codec.exists_encodeAll he "meter-4" (show 0 + 2 ≤ 0x8000000000000000 by decide)
  match batch, hbatch, Codec.length_encodeAll hbatch with
  | [d, d'], hbatch, _ =>
    have hplan : plainStore.codec.plan "meter-4" .any [Codec.reading, Codec.reading] none =
        .ok (⟨"meter-4", none, some 1⟩, [d, d']) := Codec.plan_eq_ok_iff.2 ⟨trivial, hbatch, rfl⟩
    refine ⟨d, d', ?_⟩
    rw [replay_append rfl (by decide) rfl rfl hplan, storing_cons]
    -- the reply to the first insert counts one document
    show _ :: _ :: ((plainStore.storing "meter-4" .any _ [d']).replay []).sent = _
    rw [storing_cons]
    show _ :: _ :: _ :: ((plainStore.storing "meter-4" .any _ []).replay []).sent = _
    rw [storing_nil]
    rfl

/-- A store whose transactions nobody is to acknowledge. -/
def heedlessStore : EventStore := ⟨plainStore.collection, { transaction := { writeConcern := some (.nodes 0) } }⟩

/-- An append fails with a conflict though the stream is as expected, nothing is inserted and the commit does not fail
as a command; one inserts twice, because the first reply counts one document of two; and one sends nothing. -/
theorem unforeseen_replies :
    (ExpectedVersion.any.Admits none ∧ taken.failure = none ∧
        (plainStore.append "meter-4" .any []).run.replay [{}, taken] =
          ⟨.error (.conflict "meter-4" .any), [plainStore.versionRequest "meter-4", plainStore.commitRequest], []⟩) ∧
      (∃ d d', ((plainStore.append "meter-4" .any [Codec.reading, Codec.reading]).run.replay [{}]).sent =
        [plainStore.versionRequest "meter-4", plainStore.insertRequest [d, d'], plainStore.insertRequest [d'],
          plainStore.commitRequest]) ∧
      (heedlessStore.append "meter-4" .any []).run.replay [] = ⟨.error (.database .transaction), [], []⟩ := by
  refine ⟨⟨trivial, rfl, replay_append_nothing⟩, replay_append_readings, ?_⟩
  rw [run_append_of_not_acknowledged heedlessStore _ _ _ rfl (by decide)]
  rfl

end EventStore

end Chronicle.Database
