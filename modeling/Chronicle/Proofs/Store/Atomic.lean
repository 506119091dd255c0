import Chronicle.Proofs.Fields
import Chronicle.Proofs.Store.History

/-!
# Appends are exact and atomic

After any history an append is accepted just if the stream has a name, is at the expected version, and takes each event
of the batch at its version; it then stores the batch and nothing else (`Appended`). Otherwise it blames the first of
these conditions that fails (`Violates`). `History.append_exact` says all of it.

Here a log is a value, and an append that fails has nothing to undo. A store that changes its log in place has: it opens
the stream's index before it looks for versions that are taken (`EventLog.appendInPlace`). In a log without gaps no
version behind the last is taken, so that the failure which would leave the index behind never comes
(`Gapless.appendInPlace_eq`).
-/

namespace Chronicle

namespace Codec

variable {c : Codec} {stream : String} {first : Nat} {es : List Event}

/-- The event at a place of a batch can be encoded at its version. -/
def EncodesAt (c : Codec) (stream : String) (first : Nat) (es : List Event) (i : Nat) : Prop :=
  ∀ e, es[i]? = some e → ∃ d, c.encode e stream (some (first + i)) = .ok d

theorem encodesAt_succ {e : Event} {i : Nat} :
    EncodesAt c stream first (e :: es) (i + 1) ↔ EncodesAt c stream (first + 1) es i := by
  rw [EncodesAt, EncodesAt, List.getElem?_cons_succ, Nat.add_right_comm, Nat.add_assoc]

/-- The documents of a batch are those of its events, in order. -/
theorem getElem?_encodeAll {ds : List Document} (h : c.encodeAll stream first es = .ok ds) {i : Nat} {e : Event}
    (he : es[i]? = some e) : ∃ d, ds[i]? = some d ∧ c.encode e stream (some (first + i)) = .ok d := by
  induction es generalizing first ds i with
  | nil => cases he
  | cons e' es ih =>
    obtain ⟨d, rest, hd, hr, rfl⟩ := encodeAll_cons_eq_ok_iff.1 h
    cases i with
    | zero =>
      cases he
      exact ⟨d, rfl, hd⟩
    | succ i =>
      obtain ⟨d', hd', hen⟩ := ih hr he
      refine ⟨d', hd', ?_⟩
      rw [Nat.add_right_comm] at hen
      exact hen

/-- A batch can be encoded just if each of its events can, at its version. -/
theorem encodeAll_accepted_iff :
    (∃ ds, c.encodeAll stream first es = .ok ds) ↔ ∀ i, EncodesAt c stream first es i := by
  constructor
  · rintro ⟨ds, h⟩ i e he
    obtain ⟨d, -, hd⟩ := getElem?_encodeAll h he
    exact ⟨d, hd⟩
  · intro h
    induction es generalizing first with
    | nil => exact ⟨[], rfl⟩
    | cons e es ih =>
      obtain ⟨d, hd⟩ := h 0 e rfl
      obtain ⟨rest, hr⟩ := ih fun i => encodesAt_succ.1 (h (i + 1))
      exact ⟨d :: rest, encodeAll_cons_eq_ok_iff.2 ⟨d, rest, hd, hr, rfl⟩⟩

/-- A batch is refused for the first event that cannot be encoded. -/
theorem encodeAll_eq_error_iff {problem : EncodingError} :
    c.encodeAll stream first es = .error problem ↔
      ∃ i e, es[i]? = some e ∧ c.encode e stream (some (first + i)) = .error problem ∧
        ∀ j < i, EncodesAt c stream first es j := by
  induction es generalizing first with
  | nil =>
    refine ⟨fun h => (by cases h), ?_⟩
    rintro ⟨i, e, he, -⟩
    cases he
  | cons e es ih =>
    rw [encodeAll, Except.bind_eq_error_iff]
    constructor
    · rintro (h | ⟨d, hd, h⟩)
      · exact ⟨0, e, rfl, h, fun j hj => absurd hj (Nat.not_lt_zero j)⟩
      · rcases Except.bind_eq_error_iff.1 h with h | ⟨rest, -, h⟩
        · obtain ⟨i, e', he, hen, hj⟩ := ih.1 h
          refine ⟨i + 1, e', he, ?_, fun j hlt => ?_⟩
          · rw [Nat.add_right_comm] at hen
            exact hen
          · cases j with
            | zero =>
              rintro _ ⟨⟩
              exact ⟨d, hd⟩
            | succ j => exact encodesAt_succ.2 (hj j (Nat.lt_of_succ_lt_succ hlt))
        · cases h
    · rintro ⟨i, e', he, hen, hj⟩
      cases i with
      | zero =>
        cases he
        exact .inl hen
      | succ i =>
        obtain ⟨d, hd⟩ := hj 0 (Nat.succ_pos i) e rfl
        refine .inr ⟨d, hd, Except.bind_eq_error_iff.2 (.inl (ih.2 ⟨i, e', he, ?_, fun j hlt => ?_⟩))⟩
        · rw [Nat.add_right_comm]
          exact hen
        · exact encodesAt_succ.1 (hj (j + 1) (Nat.succ_lt_succ hlt))

end Codec

namespace EventLog

variable {codec : Codec} {log log' : EventLog} {stream : String} {expected : ExpectedVersion} {events : List Event}
  {r : AppendResult} {e : StoreError}

/-! ## What an append checks and does -/

/-- What an append is refused for: the first of its conditions that fails. -/
inductive Violates (codec : Codec) (stream : String) (expected : ExpectedVersion) (events : List Event)
    (log : EventLog) : StoreError → Prop where
  | streamId : stream = "" → Violates codec stream expected events log .emptyStreamId
  | expectation : stream ≠ "" → ¬expected.Admits (log.version stream) →
    Violates codec stream expected events log (.conflict stream expected)
  | event (i : Nat) (e : Event) (problem : EncodingError) : stream ≠ "" → expected.Admits (log.version stream) →
    events[i]? = some e →
    codec.encode e stream (some (versionAfter (log.version stream) + i)) = .error problem →
    (∀ j < i, codec.EncodesAt stream (versionAfter (log.version stream)) events j) →
    Violates codec stream expected events log (.encoding problem)

/-- What an append that is accepted does to a log: the batch goes behind all documents and its versions behind those of
its stream, and nothing else happens. -/
structure Appended (codec : Codec) (stream : String) (events : List Event) (log : EventLog) (r : AppendResult)
    (log' : EventLog) : Prop where
  documents : ∃ batch, log'.documents = log.documents ++ batch ∧ batch.length = events.length ∧
    ∀ i e, events[i]? = some e → ∃ d, batch[i]? = some d ∧
      codec.encode e stream (some (versionAfter (log.version stream) + i)) = .ok d
  index : log'.index stream = log.index stream ++
    (List.range events.length).map fun i => (versionAfter (log.version stream) + i, log.size + i)
  others : ∀ other, other ≠ stream →
    log'.index other = log.index other ∧ log'.documentsOf other = log.documentsOf other
  result : r = ⟨stream, log.version stream, log'.version stream⟩
  version : log'.version stream =
    if events = [] then log.version stream else some (versionAfter (log.version stream) + events.length - 1)
  nothing : events = [] → log' = log

/-- An append to a log without gaps is accepted just if nothing is wrong with the stream id, the stream's version, and
each event. -/
theorem Gapless.append_accepted_iff (h : log.Gapless) :
    (∃ r log', log.append codec stream expected events = .ok (r, log')) ↔
      stream ≠ "" ∧ expected.Admits (log.version stream) ∧
        ∀ i, codec.EncodesAt stream (Chronicle.versionAfter (log.version stream)) events i := by
  rw [h.versionAfter, ← Codec.encodeAll_accepted_iff]
  constructor
  · rintro ⟨r, log', ha⟩
    obtain ⟨hs, hadm, batch, hb, -⟩ := (append_eq_ok_iff h).1 ha
    exact ⟨hs, hadm, batch, hb⟩
  · rintro ⟨hs, hadm, batch, hb⟩
    exact ⟨_, _, (append_eq_ok_iff h).2 ⟨hs, hadm, batch, hb, rfl, rfl⟩⟩

/-- An append to a log without gaps is refused for the first condition that it violates. -/
theorem Gapless.append_refused_iff (h : log.Gapless) :
    log.append codec stream expected events = .error e ↔ Violates codec stream expected events log e := by
  constructor
  · intro ha
    rcases Except.bind_eq_error_iff.1 ha with hid | ⟨_, hid, ha⟩
    · obtain ⟨hs, rfl⟩ := checkStreamId_eq_error_iff.1 hid
      exact .streamId hs
    have hs := checkStreamId_eq_ok_iff.1 hid
    rcases Except.bind_eq_error_iff.1 ha with hv | ⟨first, hv, ha⟩
    · obtain ⟨hadm, rfl⟩ := nextVersion_eq_error_iff.1 hv
      exact .expectation hs hadm
    obtain ⟨hadm, rfl⟩ := nextVersion_eq_ok_iff.1 hv
    rcases Except.bind_eq_error_iff.1 ha with hbatch | ⟨batch, -, ha⟩
    · obtain ⟨problem, hb, rfl⟩ := Except.mapError_eq_error_iff.1 hbatch
      obtain ⟨i, e, he, hen, hj⟩ := Codec.encodeAll_eq_error_iff.1 hb
      exact .event i e problem hs hadm he hen hj
    · -- what is left is the search for a version that is taken, and there is none
      rw [h.versionAfter, h.not_any_contains] at ha
      split at ha
      · cases ha
      · cases ha
  · intro hv
    cases hv with
    | streamId hs => exact Except.bind_eq_error_iff.2 (.inl (checkStreamId_eq_error_iff.2 ⟨hs, rfl⟩))
    | expectation hs hadm =>
      refine Except.bind_eq_error_iff.2 (.inr ⟨(), checkStreamId_eq_ok_iff.2 hs, ?_⟩)
      exact Except.bind_eq_error_iff.2 (.inl (nextVersion_eq_error_iff.2 ⟨hadm, rfl⟩))
    | event i e problem hs hadm he hen hj =>
      refine Except.bind_eq_error_iff.2 (.inr ⟨(), checkStreamId_eq_ok_iff.2 hs, ?_⟩)
      refine Except.bind_eq_error_iff.2 (.inr ⟨_, nextVersion_eq_ok_iff.2 ⟨hadm, rfl⟩, ?_⟩)
      refine Except.bind_eq_error_iff.2 (.inl (Except.mapError_eq_error_iff.2 ⟨problem, ?_, rfl⟩))
      exact Codec.encodeAll_eq_error_iff.2 ⟨i, e, he, hen, hj⟩

theorem Gapless.index_append (h : log.Gapless) {batch : List Document} {log' : EventLog}
    (hlog : log' = if batch.isEmpty then log else log.extend stream (log.count stream) batch) :
    log'.index stream = log.index stream ++
      (List.range batch.length).map fun i => (log.count stream + i, log.size + i) := by
  cases batch with
  | nil =>
    subst hlog
    exact (List.append_nil _).symm
  | cons d ds =>
    subst hlog
    exact h.index_extend stream (d :: ds)

theorem Gapless.appended (h : log.Gapless) (ha : log.append codec stream expected events = .ok (r, log')) :
    Appended codec stream events log r log' := by
  obtain ⟨-, -, batch, hb, hr, hlog⟩ := (append_eq_ok_iff h).1 ha
  obtain ⟨batch', hb', hcount, hdocs⟩ := h.of_append ha
  cases hb.symm.trans hb'
  have hlen := Codec.length_encodeAll hb
  have hidx := h.index_append hlog
  have hv : log'.version stream = lastVersion (log.count stream) batch.length (log.version stream) := by
    rw [(h.append ha).version, hcount, if_pos rfl, h.version]
    cases batch with
    | nil => rfl
    | cons d ds => rfl
  constructor
  case documents =>
    refine ⟨batch, ?_, hlen, fun i e he => ?_⟩
    · cases batch with
      | nil => exact hlog ▸ (List.append_nil _).symm
      | cons d ds => exact hlog ▸ rfl
    · rw [h.versionAfter]
      exact Codec.getElem?_encodeAll hb he
  case index => rw [hidx, h.versionAfter, hlen]
  case others =>
    intro other ho
    refine ⟨?_, ?_⟩
    · cases batch with
      | nil => exact hlog ▸ rfl
      | cons d ds => exact hlog ▸ index_extend_of_ne (Ne.symm ho) _ _
    · rw [hdocs, if_neg (Ne.symm ho), List.append_nil]
  case result => rw [hr, hv]
  case version =>
    rw [hv, h.versionAfter, hlen]
    cases events with
    | nil => rfl
    | cons e es => rfl
  case nothing =>
    rintro rfl
    rw [hlog, List.length_eq_zero_iff.1 hlen]
    rfl

/-! ## In place -/

/-- The log with an index for a stream, an empty one if the stream has none. -/
def opened (stream : String) (log : EventLog) : EventLog :=
  { log with streams := log.streams.insert stream (log.index stream) }

/-- An append to a log that is changed step by step, and the log that it leaves behind. The stream's index is there
before the versions of the batch are looked up in it. -/
def appendInPlace (codec : Codec) (stream : String) (expected : ExpectedVersion) (events : List Event)
    (log : EventLog) : Except StoreError AppendResult × EventLog :=
  match checkStreamId stream with
  | .error e => (.error e, log)
  | .ok () =>
    match nextVersion stream expected (log.version stream) with
    | .error e => (.error e, log)
    | .ok first =>
      match codec.encodeAll stream first events with
      | .error problem => (.error (.encoding problem), log)
      | .ok batch =>
        let result := ⟨stream, log.version stream, lastVersion first batch.length (log.version stream)⟩
        if batch.isEmpty then (.ok result, log)
        else
          let log := log.opened stream
          if (List.range' first batch.length).any ((log.index stream).contains ·) then
            (.error (.conflict stream expected), log)
          else (.ok result, log.extend stream first batch)

theorem index_opened (stream other : String) (log : EventLog) : (log.opened stream).index other = log.index other := by
  rw [index, opened, NameMap.get?_insert]
  split
  · rename_i hs
    exact hs ▸ rfl
  · rfl

theorem extend_opened (stream : String) (first : Nat) (batch : List Document) (log : EventLog) :
    (log.opened stream).extend stream first batch = log.extend stream first batch := by
  have hi := index_opened stream stream log
  unfold extend
  rw [hi]
  refine congrArg (EventLog.mk _) (NameMap.ext_get? fun name => ?_)
  rw [NameMap.get?_insert, NameMap.get?_insert, opened, NameMap.get?_insert]
  split <;> rfl

/-- In place an append to a log without gaps does what it does to a value, and leaves the log alone when it fails. -/
theorem Gapless.appendInPlace_eq (h : log.Gapless) (codec : Codec) (stream : String) (expected : ExpectedVersion)
    (events : List Event) :
    log.appendInPlace codec stream expected events =
      match log.append codec stream expected events with
      | .ok (r, log') => (.ok r, log')
      | .error e => (.error e, log) := by
  have hchecks (hs : stream ≠ "") (hadm : expected.Admits (log.version stream)) :
      checkStreamId stream = .ok () ∧ nextVersion stream expected (log.version stream) = .ok (log.count stream) :=
    ⟨checkStreamId_eq_ok_iff.2 hs, nextVersion_eq_ok_iff.2 ⟨hadm, (h.versionAfter stream).symm⟩⟩
  cases ha : log.append codec stream expected events with
  | ok a =>
    obtain ⟨r, log'⟩ := a
    obtain ⟨hs, hadm, batch, hb, hr, hlog⟩ := (append_eq_ok_iff h).1 ha
    obtain ⟨hid, hnext⟩ := hchecks hs hadm
    have hfree := h.not_any_contains stream batch.length
    simp only [EventLog.appendInPlace, hid, hnext, hb, index_opened, extend_opened, hfree, hr, hlog]
    split <;> rfl
  | error e =>
    cases h.append_refused_iff.1 ha with
    | streamId hs => rw [EventLog.appendInPlace, checkStreamId_eq_error_iff.2 ⟨hs, rfl⟩]
    | expectation hs hadm =>
      rw [EventLog.appendInPlace, checkStreamId_eq_ok_iff.2 hs]
      simp only [nextVersion_eq_error_iff.2 ⟨hadm, rfl⟩]
    | event i e' problem hs hadm he hen hj =>
      obtain ⟨hid, hnext⟩ := hchecks hs hadm
      have hb := Codec.encodeAll_eq_error_iff.2 ⟨i, e', he, hen, hj⟩
      rw [h.versionAfter] at hb
      simp only [EventLog.appendInPlace, hid, hnext, hb]

/-! ## After any history -/

/-- What one append does to a log. -/
structure Exact (codec : Codec) (stream : String) (expected : ExpectedVersion) (events : List Event)
    (log : EventLog) : Prop where
  accepted_iff : (∃ r log', log.append codec stream expected events = .ok (r, log')) ↔
    stream ≠ "" ∧ expected.Admits (log.version stream) ∧
      ∀ i, codec.EncodesAt stream (versionAfter (log.version stream)) events i
  accepted : ∀ r log', log.append codec stream expected events = .ok (r, log') →
    Appended codec stream events log r log' ∧ log.appendInPlace codec stream expected events = (.ok r, log')
  refused_iff : ∀ e, log.append codec stream expected events = .error e ↔
    Violates codec stream expected events log e
  /-- Nothing is left behind by an append that fails. -/
  refused : ∀ e, log.append codec stream expected events = .error e →
    log.appendInPlace codec stream expected events = (.error e, log)
  /-- No version that the batch would get is taken. -/
  free : ∀ v, versionAfter (log.version stream) ≤ v → (log.index stream).contains v = false

end EventLog

namespace History

/-- **Appends**: after any calls, an append is accepted just if its three conditions hold, and then stores its batch and
nothing else; otherwise it blames the first condition that fails, and the log stays as it is, also if it is changed in
place. -/
theorem append_exact (codec : Codec) (calls : List AppendCall) (stream : String) (expected : ExpectedVersion)
    (events : List Event) : EventLog.Exact codec stream expected events (run codec calls).log := by
  have h := (run_sound codec calls).gapless
  have hplace := h.appendInPlace_eq codec stream expected events
  refine ⟨h.append_accepted_iff, fun r log' ha => ⟨h.appended ha, ?_⟩, fun e => h.append_refused_iff, fun e ha => ?_, ?_⟩
  · rw [hplace, ha]
  · rw [hplace, ha]
  · intro v hv
    have hfree := h.not_any_contains stream (v + 1)
    rw [List.any_eq_false] at hfree
    rw [h.versionAfter] at hv
    exact Bool.eq_false_iff.2 (hfree v (List.mem_range'_1.2 ⟨hv, by omega⟩))

end History

end Chronicle
