import Chronicle.Proofs.Except
import Chronicle.Store.EventLog
import Mathlib.Data.List.Basic

/-!
# What an append does

`EventLog.append_eq_ok_iff` says when an append to a log without gaps succeeds and what it then does, and
`EventLog.error_of_append` with which errors it fails. A log is `Gapless` if each stream has the versions from zero on,
all at places of the log; appends keep it so, put a stream's new versions behind its old ones, and leave the other
streams alone.
-/

namespace Chronicle

namespace VersionIndex

variable {index : VersionIndex}

/-- A version above all others goes to the end. -/
theorem insert_of_lt {v : Nat} (h : ∀ e ∈ index, e.1 < v) (place : Nat) :
    index.insert v place = index ++ [(v, place)] := by
  induction index with
  | nil => rfl
  | cons e rest ih =>
    obtain ⟨w, p⟩ := e
    obtain ⟨hw, hr⟩ := List.forall_mem_cons.1 h
    rw [insert, if_neg (Nat.not_lt.2 (Nat.le_of_lt hw)), if_neg (Nat.ne_of_gt hw), ih hr, List.cons_append]

/-- Consecutive versions above all others go to the end, at consecutive places. -/
theorem insertRange_of_lt {first : Nat} (h : ∀ e ∈ index, e.1 < first) (place count : Nat) :
    index.insertRange first place count = index ++ (List.range count).map fun i => (first + i, place + i) := by
  induction count generalizing index first place with
  | zero => simp [insertRange]
  | succ count ih =>
    have hlt : ∀ e ∈ index ++ [(first, place)], e.1 < first + 1 := by
      intro e he
      rcases List.mem_append.1 he with he | he
      · exact Nat.lt_succ_of_lt (h e he)
      · cases List.mem_singleton.1 he
        exact Nat.lt_succ_self first
    rw [insertRange, insert_of_lt h, ih hlt, List.append_assoc, List.range_succ_eq_map, List.map_cons, List.map_map]
    simp [Function.comp_def, Nat.add_comm, Nat.add_left_comm]

end VersionIndex

theorem lastVersion_zero (first : Nat) (current : Option Nat) : lastVersion first 0 current = current := if_pos rfl

theorem lastVersion_of_pos {count : Nat} (h : 0 < count) (first : Nat) (current : Option Nat) :
    lastVersion first count current = some (first + count - 1) := if_neg (Nat.ne_of_gt h)

/-! ## Batches -/

namespace Codec

variable {c : Codec} {stream : String}

theorem encodeAll_cons_eq_ok_iff {first : Nat} {e : Event} {es : List Event} {ds : List Document} :
    c.encodeAll stream first (e :: es) = .ok ds ↔
      ∃ d rest, c.encode e stream (some first) = .ok d ∧ c.encodeAll stream (first + 1) es = .ok rest ∧
        ds = d :: rest := by
  rw [encodeAll, Except.bind_eq_ok_iff]
  constructor
  · rintro ⟨d, hd, h⟩
    obtain ⟨rest, hr, h⟩ := Except.bind_eq_ok_iff.1 h
    cases h
    exact ⟨d, rest, hd, hr, rfl⟩
  · rintro ⟨d, rest, hd, hr, rfl⟩
    exact ⟨d, hd, Except.bind_eq_ok_iff.2 ⟨rest, hr, rfl⟩⟩

/-- Each event gets one document. -/
theorem length_encodeAll {first : Nat} {es : List Event} {ds : List Document}
    (h : c.encodeAll stream first es = .ok ds) : ds.length = es.length := by
  induction es generalizing first ds with
  | nil => cases h; rfl
  | cons e es ih =>
    obtain ⟨d, rest, -, hr, rfl⟩ := encodeAll_cons_eq_ok_iff.1 h
    rw [List.length_cons, List.length_cons, ih hr]

/-- Two batches one after the other are as good as one. -/
theorem encodeAll_append {first : Nat} {es es' : List Event} {ds ds' : List Document}
    (h : c.encodeAll stream first es = .ok ds) (h' : c.encodeAll stream (first + es.length) es' = .ok ds') :
    c.encodeAll stream first (es ++ es') = .ok (ds ++ ds') := by
  induction es generalizing first ds with
  | nil => cases h; exact h'
  | cons e es ih =>
    obtain ⟨d, rest, hd, hr, rfl⟩ := encodeAll_cons_eq_ok_iff.1 h
    rw [List.length_cons, ← Nat.add_assoc, Nat.add_right_comm] at h'
    exact encodeAll_cons_eq_ok_iff.2 ⟨d, rest ++ ds', hd, ih hr h', rfl⟩

end Codec

namespace EventLog

variable {codec : Codec} {log log' : EventLog} {stream other : String} {expected : ExpectedVersion}
  {events : List Event} {r : AppendResult}

/-! ## Logs without gaps -/

/-- Each stream has the versions from zero on, and their places are those of documents. -/
structure Gapless (log : EventLog) : Prop where
  versions : ∀ stream, (log.index stream).map Prod.fst = List.range (log.index stream).length
  place_lt : ∀ stream, ∀ e ∈ log.index stream, e.2 < log.size

/-- How many events a stream has. -/
def count (log : EventLog) (stream : String) : Nat := (log.index stream).length

theorem gapless_empty : empty.Gapless where
  versions _ := rfl
  place_lt _ _ h := by cases h

theorem Gapless.version_lt (h : log.Gapless) {e : Nat × Nat} (he : e ∈ log.index stream) : e.1 < log.count stream := by
  have hm := List.mem_map_of_mem (f := Prod.fst) he
  rw [h.versions, List.mem_range] at hm
  exact hm

/-- The last version is the number of events less one. -/
theorem Gapless.version (h : log.Gapless) (stream : String) :
    log.version stream = if log.count stream = 0 then none else some (log.count stream - 1) := by
  rw [EventLog.version, VersionIndex.last?, ← List.getLast?_map, h.versions, count, List.getLast?_range]

/-- The version behind the last is the number of events. -/
theorem Gapless.versionAfter (h : log.Gapless) (stream : String) :
    versionAfter (log.version stream) = log.count stream := by
  rw [h.version]
  split
  · rename_i h0
    exact h0.symm
  · exact Nat.sub_add_cancel (Nat.one_le_iff_ne_zero.2 ‹_›)

/-! ## Extending a log -/

theorem index_extend (stream other : String) (first : Nat) (batch : List Document) (log : EventLog) :
    (log.extend stream first batch).index other =
      if stream = other then (log.index stream).insertRange first log.size batch.length else log.index other := by
  rw [index, extend, NameMap.get?_insert]
  split <;> rfl

theorem size_extend (stream : String) (first : Nat) (batch : List Document) (log : EventLog) :
    (log.extend stream first batch).size = log.size + batch.length := List.length_append

/-- New versions go behind the old ones, at the places of their documents. -/
theorem Gapless.index_extend (h : log.Gapless) (stream : String) (batch : List Document) :
    (log.extend stream (log.count stream) batch).index stream =
      log.index stream ++ (List.range batch.length).map fun i => (log.count stream + i, log.size + i) := by
  rw [EventLog.index_extend, if_pos rfl, VersionIndex.insertRange_of_lt fun e he => h.version_lt he]

theorem index_extend_of_ne (h : stream ≠ other) (first : Nat) (batch : List Document) :
    (log.extend stream first batch).index other = log.index other := by
  rw [index_extend, if_neg h]

theorem Gapless.extend (h : log.Gapless) (stream : String) (batch : List Document) :
    (log.extend stream (log.count stream) batch).Gapless := by
  constructor
  · intro other
    by_cases hs : stream = other
    · subst hs
      rw [h.index_extend, List.map_append, h.versions, List.map_map, List.length_append, List.length_map,
        List.length_range, List.range_add]
      rfl
    · rw [index_extend_of_ne hs, h.versions]
  · intro other e he
    rw [size_extend]
    by_cases hs : stream = other
    · subst hs
      rw [h.index_extend] at he
      rcases List.mem_append.1 he with he | he
      · exact Nat.lt_add_right _ (h.place_lt _ e he)
      · obtain ⟨i, hi, rfl⟩ := List.mem_map.1 he
        exact Nat.add_lt_add_left (List.mem_range.1 hi) _
    · rw [index_extend_of_ne hs] at he
      exact Nat.lt_add_right _ (h.place_lt _ e he)

/-! ## The documents of a stream -/

/-- The documents of a stream, in order of their versions. -/
def documentsOf (log : EventLog) (stream : String) : List Document := log.slice stream 0 none

theorem documentsOf_eq (log : EventLog) (stream : String) :
    log.documentsOf stream = (log.index stream).filterMap fun e => log.documents[e.2]? := by
  rw [documentsOf, slice, VersionIndex.places, List.drop_zero, List.filterMap_map]
  rfl

/-- Documents behind the others do not change what is at the old places. -/
theorem Gapless.filterMap_documents (h : log.Gapless) (stream : String) (batch : List Document) :
    ((log.index stream).filterMap fun e => (log.documents ++ batch)[e.2]?) = log.documentsOf stream := by
  rw [documentsOf_eq]
  refine List.filterMap_congr fun e he => ?_
  exact List.getElem?_append_left (h.place_lt stream e he)

theorem filterMap_range_getElem? {α : Type} (xs : List α) :
    ((List.range xs.length).filterMap fun i => xs[i]?) = xs := by
  induction xs with
  | nil => rfl
  | cons x xs ih =>
    rw [List.length_cons, List.range_succ_eq_map, List.filterMap_cons, List.filterMap_map]
    exact congrArg (x :: ·) ih

theorem filterMap_new_documents (docs batch : List Document) (first : Nat) :
    (((List.range batch.length).map fun i => (first + i, docs.length + i)).filterMap fun e =>
      (docs ++ batch)[e.2]?) = batch := by
  rw [List.filterMap_map]
  have hi : ((fun e : Nat × Nat => (docs ++ batch)[e.2]?) ∘ fun i => (first + i, docs.length + i)) =
      fun i => batch[i]? := by
    funext i
    rw [Function.comp_apply, List.getElem?_append_right (Nat.le_add_right _ _), Nat.add_sub_cancel_left]
  rw [hi, filterMap_range_getElem?]

/-- A batch goes behind the documents of its stream, and those of other streams stay. -/
theorem Gapless.documentsOf_extend (h : log.Gapless) (stream : String) (batch : List Document) (other : String) :
    (log.extend stream (log.count stream) batch).documentsOf other =
      log.documentsOf other ++ if stream = other then batch else [] := by
  by_cases hs : stream = other
  · subst hs
    rw [documentsOf_eq, h.index_extend, List.filterMap_append, if_pos rfl]
    exact congr (congrArg _ (h.filterMap_documents stream batch)) (filterMap_new_documents log.documents batch _)
  · rw [documentsOf_eq, index_extend_of_ne hs, if_neg hs, List.append_nil]
    exact h.filterMap_documents other batch

theorem Gapless.count_extend (h : log.Gapless) (stream : String) (batch : List Document) (other : String) :
    (log.extend stream (log.count stream) batch).count other =
      log.count other + if stream = other then batch.length else 0 := by
  by_cases hs : stream = other
  · subst hs
    rw [count, h.index_extend, List.length_append, List.length_map, List.length_range, if_pos rfl, count]
  · rw [count, index_extend_of_ne hs, if_neg hs, Nat.add_zero, count]

/-! ## Appending -/

theorem checkStreamId_eq_ok_iff : checkStreamId stream = .ok () ↔ stream ≠ "" := by
  rw [checkStreamId]
  cases h : stream.isEmpty with
  | true => simpa using String.isEmpty_iff.1 h
  | false =>
    refine ⟨fun _ hs => ?_, fun _ => rfl⟩
    rw [hs] at h
    cases h

theorem checkStreamId_eq_error_iff {e : StoreError} :
    checkStreamId stream = .error e ↔ stream = "" ∧ e = .emptyStreamId := by
  by_cases hs : stream = ""
  · subst hs
    exact ⟨fun h => (by cases h; exact ⟨rfl, rfl⟩), fun h => h.2 ▸ rfl⟩
  · rw [checkStreamId_eq_ok_iff.2 hs]
    exact ⟨fun h => (by cases h), fun h => absurd h.1 hs⟩

/-- The versions behind the last one are free. -/
theorem Gapless.not_any_contains (h : log.Gapless) (stream : String) (count : Nat) :
    (List.range' (log.count stream) count).any ((log.index stream).contains ·) = false := by
  rw [List.any_eq_false]
  intro v hv hc
  obtain ⟨e, he, hev⟩ := List.any_eq_true.1 hc
  have hlt := h.version_lt he
  have hle := (List.mem_range'_1.1 hv).1
  rw [beq_iff_eq.1 hev] at hlt
  exact Nat.lt_irrefl _ (Nat.lt_of_lt_of_le hlt hle)

/-- An append to a log without gaps succeeds just if the stream id is not empty, the stream is as expected and all
events can be encoded at the next versions; a batch that is not empty then goes behind the others. -/
theorem append_eq_ok_iff (h : log.Gapless) :
    log.append codec stream expected events = .ok (r, log') ↔
      stream ≠ "" ∧ expected.Admits (log.version stream) ∧
        ∃ batch, codec.encodeAll stream (log.count stream) events = .ok batch ∧
          r = ⟨stream, log.version stream, lastVersion (log.count stream) batch.length (log.version stream)⟩ ∧
          log' = if batch.isEmpty then log else log.extend stream (log.count stream) batch := by
  simp only [append, Except.bind_eq_ok_iff, nextVersion_eq_ok_iff, Except.mapError_eq_ok_iff]
  constructor
  · rintro ⟨_, hs, first, ⟨ha, rfl⟩, batch, hb, hr⟩
    rw [h.versionAfter] at hb hr
    rw [h.not_any_contains] at hr
    refine ⟨checkStreamId_eq_ok_iff.1 hs, ha, batch, hb, ?_⟩
    cases he : batch.isEmpty with
    | true =>
      rw [he] at hr
      cases hr
      exact ⟨rfl, rfl⟩
    | false =>
      rw [he] at hr
      cases hr
      exact ⟨rfl, rfl⟩
  · rintro ⟨hs, ha, batch, hb, rfl, rfl⟩
    refine ⟨(), checkStreamId_eq_ok_iff.2 hs, _, ⟨ha, rfl⟩, batch, ?_, ?_⟩
    · rw [h.versionAfter, hb]
    · rw [h.versionAfter, h.not_any_contains]
      cases batch.isEmpty <;> rfl

theorem Gapless.append (h : log.Gapless) (ha : log.append codec stream expected events = .ok (r, log')) :
    log'.Gapless := by
  obtain ⟨-, -, batch, -, -, rfl⟩ := (append_eq_ok_iff h).1 ha
  split
  · exact h
  · exact h.extend stream batch

/-- A successful append adds its batch to its stream and nothing to others. -/
theorem Gapless.of_append (h : log.Gapless) (ha : log.append codec stream expected events = .ok (r, log')) :
    ∃ batch, codec.encodeAll stream (log.count stream) events = .ok batch ∧
      (∀ other, log'.count other = log.count other + if stream = other then batch.length else 0) ∧
      ∀ other, log'.documentsOf other = log.documentsOf other ++ if stream = other then batch else [] := by
  obtain ⟨-, -, batch, hb, -, rfl⟩ := (append_eq_ok_iff h).1 ha
  refine ⟨batch, hb, ?_⟩
  cases batch with
  | nil => simp
  | cons d ds => exact ⟨h.count_extend stream (d :: ds), h.documentsOf_extend stream (d :: ds)⟩

/-- Documents that are in the log stay at their places. -/
theorem prefix_of_append (ha : log.append codec stream expected events = .ok (r, log')) :
    log.documents <+: log'.documents := by
  obtain ⟨_, -, ha⟩ := Except.bind_eq_ok_iff.1 ha
  obtain ⟨first, -, ha⟩ := Except.bind_eq_ok_iff.1 ha
  obtain ⟨batch, -, ha⟩ := Except.bind_eq_ok_iff.1 ha
  split at ha
  · cases ha
    exact List.prefix_refl _
  · split at ha
    · cases ha
    · cases ha
      exact List.prefix_append _ _

/-- An append that fails blames the stream id, another writer or an event. -/
theorem error_of_append {e : StoreError} (h : log.append codec stream expected events = .error e) :
    e = .emptyStreamId ∨ e = .conflict stream expected ∨ ∃ problem, e = .encoding problem := by
  rcases Except.bind_eq_error_iff.1 h with h | ⟨_, -, h⟩
  · exact .inl (checkStreamId_eq_error_iff.1 h).2
  rcases Except.bind_eq_error_iff.1 h with h | ⟨first, -, h⟩
  · exact .inr (.inl (nextVersion_eq_error_iff.1 h).2)
  rcases Except.bind_eq_error_iff.1 h with h | ⟨batch, -, h⟩
  · obtain ⟨problem, -, rfl⟩ := Except.mapError_eq_error_iff.1 h
    exact .inr (.inr ⟨problem, rfl⟩)
  split at h
  · cases h
  · split at h
    · cases h
      exact .inr (.inl rfl)
    · cases h

end EventLog

end Chronicle
