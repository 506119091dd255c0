import Chronicle.Database.EventStore
import Chronicle.Proofs.Database.Server
import Chronicle.Proofs.Store.Coherence
import Chronicle.Proofs.Store.History
import Chronicle.Proofs.Store.ReadBack
import Mathlib.Data.List.Forall2

/-!
# Parts of streams, from a database and from memory

A collection replicates a log if it holds the log's documents, in any order and with any keys (`Replicates`). The
versions in a stream's documents count from zero, so that there is one answer to the question for its last version and
for a part of it (`answers_latest_iff`, `answers_window_iff`). So a store on a server that keeps to the rules reads what
the log reads (`EventStore.yields_readSlice`), except that no limit at all is meant by a limit of zero, and that some
settings rule out any read (`StoreConfig.obstacle`).
-/

namespace Chronicle

/-! ## Documents with keys -/

/-- The same document, but for its key. -/
def Keyed (d d' : Document) : Prop := Fields.erase internalIdField d' = Fields.erase internalIdField d

namespace Keyed

variable {d d' : Document} {name : String}

theorem get?_eq (h : Keyed d d') (hn : internalIdField ≠ name) : Fields.get? name d' = Fields.get? name d := by
  rw [← Fields.get?_erase_of_ne hn, h, Fields.get?_erase_of_ne hn]

theorem decode_eq (h : Keyed d d') (c : Codec) : c.decode d' = c.decode d := by
  rw [Codec.decode, Codec.decode, h]

theorem belongsTo_eq (h : Keyed d d') (stream : String) : Codec.belongsTo stream d' = Codec.belongsTo stream d := by
  rw [Codec.belongsTo, Codec.belongsTo, h.get?_eq (by decide)]

theorem labelled {stream : String} {v : Nat} (h : Keyed d d') (hl : Codec.Labelled stream v d) :
    Codec.Labelled stream v d' where
  streamId := (h.get?_eq (by decide)).trans hl.streamId
  streamVersion := (h.get?_eq (by decide)).trans hl.streamVersion
  version_le := hl.version_le

end Keyed

theorem Codec.decodeAll_keyed {ds ds' : List Document} (h : List.Forall₂ Keyed ds ds') (c : Codec) :
    c.decodeAll ds' = c.decodeAll ds := by
  induction h with
  | nil => rfl
  | cons hd _ ih => rw [decodeAll, decodeAll, hd.decode_eq, ih]

/-- A collection holds the documents of a log, in any order. The database may have given them keys. -/
def Replicates (documents : List Document) (log : EventLog) : Prop :=
  ∃ ds, List.Forall₂ Keyed log.documents ds ∧ documents.Perm ds

namespace Database

open Codec (Labelled belongsTo)

/-! ## Documents in order of their versions -/

/-- The documents of a stream as a collection holds them, in order of their versions. -/
def Ordered (stream : String) (kept : List Document) : Prop :=
  ∀ (i : Nat) (d : Document), kept[i]? = some d → Labelled stream i d

variable {stream : String} {kept sorted documents : List Document} {d : Document} {v : Nat} {n : Int32}

theorem integerAt_version (h : Labelled stream v d) : integerAt streamVersionField d = some (v : Int) := by
  have hv : (Int64.ofNat v).toInt = v := Int64.toInt_ofNat_of_lt (by have := h.version_le; omega)
  simp only [integerAt, h.streamVersion, hv]

theorem inOrder_version_iff {d' : Document} {v' : Nat} (h : Labelled stream v d) (h' : Labelled stream v' d') :
    InOrder [(streamVersionField, .int32 n)] d d' ↔ n.toInt * v < n.toInt * v' ∨ v = v' := by
  simp only [InOrder, integerAt_version h, integerAt_version h', Int.ofNat_inj, and_true]

namespace Ordered

theorem getElem (h : Ordered stream kept) {i : Nat} (hi : i < kept.length) : Labelled stream i kept[i] :=
  h i _ (List.getElem?_eq_getElem hi)

theorem ascending (h : Ordered stream kept) : kept.Pairwise (InOrder [(streamVersionField, .int32 1)]) := by
  refine List.pairwise_iff_getElem.2 fun i j hi hj hij => ?_
  rw [inOrder_version_iff (h.getElem hi) (h.getElem hj)]
  have h1 : (1 : Int32).toInt = 1 := rfl
  rw [h1]
  omega

theorem descending (h : Ordered stream kept) :
    kept.reverse.Pairwise (InOrder [(streamVersionField, .int32 (-1))]) := by
  refine List.pairwise_reverse.2 (List.pairwise_iff_getElem.2 fun i j hi hj hij => ?_)
  rw [inOrder_version_iff (h.getElem hj) (h.getElem hi)]
  have h1 : (-1 : Int32).toInt = -1 := rfl
  rw [h1]
  omega

/-- No two documents of a stream have the same place in an order by versions. -/
theorem antisymm (h : Ordered stream kept) {a b : Document} (ha : a ∈ kept) (hb : b ∈ kept)
    (hab : InOrder [(streamVersionField, .int32 n)] a b) (hba : InOrder [(streamVersionField, .int32 n)] b a) :
    a = b := by
  obtain ⟨i, hi, rfl⟩ := List.mem_iff_getElem.1 ha
  obtain ⟨j, hj, rfl⟩ := List.mem_iff_getElem.1 hb
  rw [inOrder_version_iff (h.getElem hi) (h.getElem hj)] at hab
  rw [inOrder_version_iff (h.getElem hj) (h.getElem hi)] at hba
  obtain rfl : i = j := by omega
  rfl

/-- There is only one order by versions. -/
theorem eq_of_pairwise (h : Ordered stream kept) {sorted' : List Document} (hp : sorted.Perm kept)
    (hp' : sorted'.Perm kept) (hs : sorted.Pairwise (InOrder [(streamVersionField, .int32 n)]))
    (hs' : sorted'.Pairwise (InOrder [(streamVersionField, .int32 n)])) : sorted = sorted' :=
  (hp.trans hp'.symm).eq_of_pairwise (fun _ _ ha hb hab hba => h.antisymm (hp.subset ha) (hp'.subset hb) hab hba) hs hs'

end Ordered

/-! ## Answers -/

theorem get?_project {fields : Document} {name : String} (hn : name ∈ Fields.names fields) :
    Fields.get? name (project (some fields) d) = Fields.get? name d := by
  induction d with
  | nil => rfl
  | cons f rest ih =>
    obtain ⟨k, v⟩ := f
    by_cases hk : k = name
    · subst hk
      simp [project, hn, Fields.get?]
    · rw [Fields.get?, if_neg hk, ← ih, project, project, List.filter_cons]
      split
      · rw [Fields.get?, if_neg hk]
      · rfl

theorem meets_ofStream_iff (s : EventStore) (stream : String) (d : Document) :
    Meets (s.ofStream stream).filter d ↔ belongsTo stream d = true := by
  rw [Codec.belongsTo_iff]
  exact ⟨fun h => h _ List.mem_cons_self, fun h f hf => by cases List.mem_singleton.1 hf; exact h⟩

/-- The documents of a stream in a collection, in order of their versions. -/
structure Numbered (stream : String) (documents kept : List Document) : Prop where
  ordered : Ordered stream kept
  perm : (documents.filter (belongsTo stream)).Perm kept

/-- The documents of a stream in a collection that replicates a log. -/
structure Kept (stream : String) (log : EventLog) (documents kept : List Document) : Prop where
  keyed : List.Forall₂ Keyed (log.documentsOf stream) kept
  ordered : Ordered stream kept
  perm : (documents.filter (belongsTo stream)).Perm kept

theorem exists_kept {log : EventLog} (h : log.Coherent) (hr : Replicates documents log) (stream : String) :
    ∃ kept, Kept stream log documents kept := by
  obtain ⟨ds, hds, hperm⟩ := hr
  have hkeyed : List.Forall₂ Keyed (log.documentsOf stream) (ds.filter (belongsTo stream)) := by
    rw [← h.filter_belongsTo]
    refine List.rel_filter (fun d d' hd => ?_) hds
    show belongsTo stream d = true ↔ belongsTo stream d' = true
    rw [hd.belongsTo_eq]
  refine ⟨ds.filter (belongsTo stream), hkeyed, fun i d hd => ?_, hperm.filter _⟩
  obtain ⟨hi, rfl⟩ := List.getElem?_eq_some_iff.1 hd
  have hi' : i < (log.documentsOf stream).length := hkeyed.length_eq ▸ hi
  exact (hkeyed.get hi' hi).labelled (h.labelled_documentsOf (List.getElem?_eq_getElem hi'))

/-- The version can be read from the one field that is asked for. -/
theorem streamVersionOf_project (s : EventStore) (h : Labelled stream v d) :
    streamVersionOf (project (s.latest stream).projection d) = .ok (some v) := by
  have hget : Fields.get? streamVersionField (project (s.latest stream).projection d) =
      Fields.get? streamVersionField d := get?_project List.mem_cons_self
  rw [streamVersionOf, hget, h.streamVersion]
  simp only [Codec.versionOfBson_ofNat h.version_le]
  rfl

namespace Numbered

variable {s : EventStore} {skip : Nat} {limit : Option Nat} {result : List Document}

/-- A question for the documents of a stream in an order by versions has one answer. -/
theorem answers_iff (h : Numbered stream documents kept) {q : Query}
    (hf : ∀ d, Meets q.filter d ↔ belongsTo stream d = true) (hsort : q.sort = some [(streamVersionField, .int32 n)])
    {order : List Document} (hp : order.Perm kept)
    (ho : order.Pairwise (InOrder [(streamVersionField, .int32 n)])) :
    q.Answers documents result ↔ result = (cut q.skip q.limit order).map (project q.projection) := by
  classical
  have hfilter : (documents.filter fun d => decide (Meets q.filter d)).Perm kept := by
    refine .trans (.of_eq (List.filter_congr fun d _ => ?_)) h.perm
    rw [Bool.eq_iff_iff, decide_eq_true_iff, hf]
  constructor
  · rintro ⟨sorted, hsorted, hkeys, rfl⟩
    rw [h.ordered.eq_of_pairwise (hsorted.trans hfilter) hp (hkeys _ hsort) ho]
  · rintro rfl
    refine ⟨order, hp.trans hfilter.symm, fun keys hkeys => ?_, rfl⟩
    rw [hsort] at hkeys
    cases hkeys
    exact ho

/-- The question for a part of a stream is answered by that part. -/
theorem answers_window_iff (h : Numbered stream documents kept) :
    (s.window stream skip limit).Answers documents result ↔
      result = cut (if skip = 0 then none else some skip) limit kept := by
  rw [h.answers_iff (q := s.window stream skip limit) (meets_ofStream_iff s stream) rfl (.refl _) h.ordered.ascending]
  refine iff_of_eq (congrArg (result = ·) ?_)
  exact List.map_id _

/-- The question for the last version of a stream is answered by its last document. -/
theorem answers_latest_iff (h : Numbered stream documents kept) :
    (s.latest stream).one.Answers documents result ↔
      result = (kept.reverse.take 1).map (project (s.latest stream).projection) :=
  h.answers_iff (q := (s.latest stream).one) (meets_ofStream_iff s stream) rfl kept.reverse_perm h.ordered.descending

/-- The document in the answer has the last version, if there is one. -/
theorem head?_latest (s : EventStore) (stream : String) (kept : List Document) :
    ((kept.reverse.take 1).map (project (s.latest stream).projection)).head? =
      kept.getLast?.map (project (s.latest stream).projection) := by
  rw [List.head?_map, List.head?_take, if_neg (by decide), List.head?_reverse]

end Numbered

namespace Kept

variable {s : EventStore} {log : EventLog} {skip : Nat} {limit : Option Nat} {result : List Document}

theorem numbered (h : Kept stream log documents kept) : Numbered stream documents kept := ⟨h.ordered, h.perm⟩

/-- A read of the last version gives the version of the stream. -/
theorem yields_currentVersion (h : Kept stream log documents kept) (hc : log.Coherent)
    (part : Option TransactionPart) :
    (s.currentVersion stream part).run.Yields (Serves s.collection documents) (.ok (log.version stream)) := by
  have hcount : log.count stream = kept.length := by rw [← hc.length_documentsOf, h.keyed.length_eq]
  have hfound := Attempt.yields_findOne (q := s.latest stream) rfl (fun _ => h.numbered.answers_latest_iff) part
  rw [Numbered.head?_latest] at hfound
  refine Attempt.yields_bind_ok hfound ?_
  rw [hc.version, hcount]
  cases hlast : kept.getLast? with
  | none =>
    rw [List.getLast?_eq_none_iff.1 hlast]
    exact Attempt.yields_mk_done _ _
  | some d =>
    have hlen : kept.length ≠ 0 := fun h0 => by simp [List.length_eq_zero_iff.1 h0] at hlast
    rw [List.getLast?_eq_getElem?] at hlast
    have hversion := streamVersionOf_project s (h.ordered _ d hlast)
    rw [Option.map_some, if_neg hlen]
    show Dialogue.Yields _ (ExceptT.mk (.done ((streamVersionOf _).mapError .decoding)) : Attempt _).run _
    rw [hversion]
    exact Attempt.yields_mk_done _ _

/-- The part that is cut out of the kept documents is decoded like the part of the log. -/
theorem decodeAll_cut (h : Kept stream log documents kept) (hc : log.Coherent) (c : Codec) (skip : Nat)
    (limit : Option Nat) :
    c.decodeAll (cut (if skip = 0 then none else some skip) limit kept) =
      c.decodeAll (log.slice stream skip (if limit = some 0 then none else limit)) := by
  have hskip : (if skip = 0 then none else some skip).getD 0 = skip := by
    split
    · exact Eq.symm ‹_›
    · rfl
  have hkeyed : List.Forall₂ Keyed (log.slice stream skip (if limit = some 0 then none else limit))
      (cut (if skip = 0 then none else some skip) limit kept) := by
    rw [hc.slice_eq, cut.eq_def, hskip]
    match limit with
    | none => exact List.forall₂_drop skip h.keyed
    | some 0 => exact List.forall₂_drop skip h.keyed
    | some (n + 1) => exact List.forall₂_take (n + 1) (List.forall₂_drop skip h.keyed)
  exact Codec.decodeAll_keyed hkeyed c

/-- The version and a part of the documents of a stream, if they can be asked for. -/
theorem yields_versionAndDocuments (h : Kept stream log documents kept) (hc : log.Coherent)
    (early late : Option TransactionPart) (skip : Nat) (limit : Option Nat) :
    (s.versionAndDocuments stream (s.window stream skip limit) early late).run.Yields (Serves s.collection documents)
      (((s.window stream skip limit).check.mapError .database).map fun _ =>
        (log.version stream, cut (if skip = 0 then none else some skip) limit kept)) := by
  refine Attempt.yields_bind_ok (h.yields_currentVersion hc early) ?_
  cases hq : (s.window stream skip limit).check with
  | error e =>
    refine Attempt.yields_bind_error (Attempt.yields_bind_error ?_)
    rw [hq]
    exact Attempt.yields_mk_done _ _
  | ok _ =>
    refine Attempt.yields_bind_ok (Attempt.yields_findAll rfl hq (fun _ => h.numbered.answers_window_iff) late) ?_
    exact Attempt.yields_mk_done _ _

end Kept

end Database

/-! ## Reading parts -/

/-- Why nothing can be read under a configuration: its transactions are not acknowledged, or its batches too large. -/
def StoreConfig.obstacle (config : StoreConfig) : Option StoreError :=
  if config.consistency = .transactional ∧ Database.isAcknowledged config.transaction = false then
    some (.database .transaction)
  else if (config.shapeQuery {}).batchSize.any (0x80000000 ≤ ·) then some (.database .invalidArgument)
  else none

namespace Database

variable {s : EventStore} {stream : String} {skip : Nat} {limit : Option Nat} {log : EventLog}
  {documents kept : List Document}

theorem check_window (s : EventStore) (stream : String) (hskip : skip ≤ 0x7FFFFFFFFFFFFFFF) (limit : Option Nat) :
    (s.window stream skip limit).check =
      if (s.config.shapeQuery {}).batchSize.any (0x80000000 ≤ ·) then .error .invalidArgument else .ok () := by
  have hs : (if skip = 0 then none else some skip).any (0x8000000000000000 ≤ ·) = false := by
    split
    · rfl
    · simp only [Option.any_some, decide_eq_false_iff_not]
      omega
  simp only [Query.check, EventStore.window, hs]
  rfl

/-- The two questions of a read, within a transaction or not. -/
def EventStore.consult (s : EventStore) (stream : String) (q : Query) : Attempt (Option Nat × List Document) :=
  match s.config.consistency with
  | .transactional =>
    let concern := s.config.transaction.readConcern.or (some .snapshot)
    Attempt.inTransaction s.config.transaction .database
      (s.versionAndDocuments stream q (some (.first concern)) (some .later))
  | .independent => s.versionAndDocuments stream q none none

theorem EventStore.readSlice_eq (s : EventStore) (stream : String) (skip : Nat) (limit : Option Nat) :
    s.readSlice stream skip limit = do
      ExceptT.mk (.done (checkStreamId stream))
      ExceptT.mk (.done (checkLimit limit))
      let (version, documents) ← s.consult stream (s.window stream skip limit)
      let events ← ExceptT.mk (.done ((s.codec.decodeAll documents).mapError .decoding))
      return ⟨stream, version, events⟩ := by
  unfold readSlice consult
  cases s.config.consistency <;> rfl

theorem Kept.yields_consult (h : Kept stream log documents kept) (hc : log.Coherent)
    (hskip : skip ≤ 0x7FFFFFFFFFFFFFFF) (limit : Option Nat) :
    (s.consult stream (s.window stream skip limit)).run.Yields (Serves s.collection documents)
      (match s.config.obstacle with
      | some e => .error e
      | none => .ok (log.version stream, cut (if skip = 0 then none else some skip) limit kept)) := by
  have hparts (early late : Option TransactionPart) := h.yields_versionAndDocuments (s := s) hc early late skip limit
  rw [check_window s stream hskip limit] at hparts
  unfold StoreConfig.obstacle EventStore.consult
  cases hcons : s.config.consistency with
  | independent =>
    rw [if_neg (by simp)]
    by_cases hb : (s.config.shapeQuery {}).batchSize.any (0x80000000 ≤ ·) = true
    · simp only [if_pos hb] at hparts ⊢
      exact hparts none none
    · simp only [if_neg hb] at hparts ⊢
      exact hparts none none
  | transactional =>
    cases hack : Database.isAcknowledged s.config.transaction with
    | false =>
      rw [if_pos ⟨rfl, rfl⟩]
      simp only [Attempt.inTransaction, hack]
      exact Attempt.yields_mk_done _ _
    | true =>
      rw [if_neg (by simp)]
      by_cases hb : (s.config.shapeQuery {}).batchSize.any (0x80000000 ≤ ·) = true
      · simp only [if_pos hb] at hparts ⊢
        exact Attempt.yields_inTransaction hack (hparts _ _) _
      · simp only [if_neg hb] at hparts ⊢
        exact Attempt.yields_inTransaction hack (hparts _ _) _

/-- What a store reads of a part of a stream, if its collection replicates the log. -/
theorem EventStore.yields_readSlice (s : EventStore) (hc : log.Coherent) (hd : Replicates documents log)
    (stream : String) (hskip : skip ≤ 0x7FFFFFFFFFFFFFFF) (hlimit : ∀ n, limit = some n → n ≤ 0x7FFFFFFFFFFFFFFF) :
    (s.readSlice stream skip limit).run.Yields (Serves s.collection documents)
      (match s.config.obstacle with
      | some e => checkStreamId stream >>= fun _ => .error e
      | none => EventLog.readSlice s.codec stream skip (if limit = some 0 then none else limit) log log) := by
  obtain ⟨kept, h⟩ := exists_kept hc hd stream
  have hlim : checkLimit limit = .ok () := by
    cases limit with
    | none => rfl
    | some n =>
      have hn := hlimit n rfl
      exact if_pos (by omega)
  have hread := h.yields_consult (s := s) hc hskip limit
  rw [readSlice_eq]
  cases hid : checkStreamId stream with
  | error e =>
    have hlog : EventLog.readSlice s.codec stream skip (if limit = some 0 then none else limit) log log = .error e := by
      rw [EventLog.readSlice, hid]
      rfl
    rw [hlog]
    cases s.config.obstacle <;> exact Attempt.yields_bind_error (Attempt.yields_mk_done _ _)
  | ok _ =>
    refine Attempt.yields_bind_ok (a := ()) (Attempt.yields_mk_done _ _) ?_
    refine Attempt.yields_bind_ok (a := ()) (by rw [hlim]; exact Attempt.yields_mk_done _ _) ?_
    cases ho : s.config.obstacle with
    | some e =>
      simp only [ho] at hread
      exact Attempt.yields_bind_error hread
    | none =>
      simp only [ho] at hread
      refine Attempt.yields_bind_ok hread ?_
      rw [EventLog.readSlice, hid, Except.ok_bind, ← h.decodeAll_cut hc]
      cases hdec : (s.codec.decodeAll (cut (if skip = 0 then none else some skip) limit kept)).mapError
          StoreError.decoding with
      | error e => exact Attempt.yields_bind_error (by rw [hdec]; exact Attempt.yields_mk_done _ _)
      | ok events =>
        exact Attempt.yields_bind_ok (by rw [hdec]; exact Attempt.yields_mk_done _ _) (Attempt.yields_mk_done _ _)

/-- **Paging**: on a server that keeps to the rules and has the documents of some history, a store reads the part of a
stream that is read from the log of this history with the same codec; but a limit of zero is none, and nothing can be
read under some settings. -/
theorem paging (s : EventStore) {codec : Codec} {calls : List AppendCall} {documents : List Document}
    (hd : Replicates documents (History.run codec calls).log) (stream : String) {skip : Nat}
    (hskip : skip ≤ 0x7FFFFFFFFFFFFFFF) {limit : Option Nat} (hlimit : ∀ n, limit = some n → n ≤ 0x7FFFFFFFFFFFFFFF) :
    (s.readSlice stream skip limit).run.Yields (Serves s.collection documents)
      (match s.config.obstacle with
      | some e => checkStreamId stream >>= fun _ => .error e
      | none =>
        EventLog.readSlice s.codec stream skip (if limit = some 0 then none else limit)
          (History.run codec calls).log (History.run codec calls).log) :=
  s.yields_readSlice (History.coherent_run codec calls) hd stream hskip hlimit

open History (opening following)

/-- A store with the settings that it has if nobody says otherwise. -/
def plainStore : EventStore := ⟨⟨"strand", "events"⟩, {}⟩

/-- A history with three events of a stream. -/
def threeReadings : History := History.run (.json .rfc3339String) [opening, following]

theorem replicates_reverse (log : EventLog) : Replicates log.documents.reverse log :=
  ⟨log.documents, List.forall₂_same.2 fun _ _ => rfl, log.documents.reverse_perm⟩

theorem paging_threeReadings :
    (Replicates threeReadings.log.documents.reverse threeReadings.log ∧ 1 ≤ 0x7FFFFFFFFFFFFFFF ∧
        ∀ n, some 2 = some n → n ≤ 0x7FFFFFFFFFFFFFFF) ∧
      (plainStore.readSlice "meter-4" 1 (some 2)).run.Yields
        (Serves plainStore.collection threeReadings.log.documents.reverse)
        (EventLog.readSlice plainStore.codec "meter-4" 1 (some 2) threeReadings.log threeReadings.log) := by
  have hd := replicates_reverse threeReadings.log
  have hlimit : ∀ n, some 2 = some n → n ≤ 0x7FFFFFFFFFFFFFFF := by
    intro n hn
    cases hn
    decide
  exact ⟨⟨hd, by decide, hlimit⟩, paging plainStore hd "meter-4" (by decide) hlimit⟩

/-- What a log reads of a whole stream, and of none of it. -/
theorem readSlice_of_decodeAll {c : Codec} {log : EventLog} {stream : String} {version : Option Nat}
    {events : List StreamEvent} (hne : stream ≠ "") (hv : log.version stream = version)
    (hd : c.decodeAll (log.documentsOf stream) = .ok events) :
    EventLog.readSlice c stream 0 none log log = .ok ⟨stream, version, events⟩ ∧
      EventLog.readSlice c stream 0 (some 0) log log = .ok ⟨stream, version, []⟩ := by
  have hid := EventLog.checkStreamId_eq_ok_iff.2 hne
  rw [EventLog.documentsOf] at hd
  constructor
  · rw [EventLog.readSlice, hid, hd, hv]
    rfl
  · have hnone : log.slice stream 0 (some 0) = [] := by simp [EventLog.slice]
    rw [EventLog.readSlice, hid, hnone, hv]
    rfl

/-- With a limit of zero all events are read from the database, and none from the log. -/
theorem zero_limit_threeReadings :
    (plainStore.readSlice "meter-4" 0 (some 0)).run.Yields
        (Serves plainStore.collection threeReadings.log.documents.reverse)
        (.ok ⟨"meter-4", some 2, [⟨"meter-4", 0, Codec.reading⟩, ⟨"meter-4", 1, Codec.reading⟩,
          ⟨"meter-4", 2, Codec.reading⟩]⟩) ∧
      EventLog.readSlice plainStore.codec "meter-4" 0 (some 0) threeReadings.log threeReadings.log =
        .ok ⟨"meter-4", some 2, []⟩ := by
  have hs := History.run_sound (.json .rfc3339String) [opening, following]
  have hversion := hs.gapless.version "meter-4"
  have hstored := hs.stored "meter-4"
  rw [hs.count, History.eventsOf_readings] at hversion
  rw [History.eventsOf_readings] at hstored
  have hfollowing : following ∈ [opening, following] := List.mem_cons_of_mem _ List.mem_cons_self
  have hdecoded := Codec.decodeAll_encodeAll (fun e he => ?_) hstored
  case refine_1 => exact History.storable_reading hfollowing (by simpa [following] using he)
  obtain ⟨hall, hnone⟩ := readSlice_of_decodeAll (by decide) hversion hdecoded
  refine ⟨?_, hnone⟩
  have hlimit : ∀ n, some 0 = some n → n ≤ 0x7FFFFFFFFFFFFFFF := by
    intro n hn
    cases hn
    decide
  have hread := plainStore.yields_readSlice (History.coherent_run _ _) (replicates_reverse threeReadings.log) "meter-4"
    (Nat.zero_le _) hlimit
  exact hall ▸ hread

end Database

end Chronicle
