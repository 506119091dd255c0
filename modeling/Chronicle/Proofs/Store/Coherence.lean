import Chronicle.Proofs.Codec.Encoding
import Chronicle.Proofs.Store.Atomic
import Mathlib.Data.List.Nodup
import Mathlib.Logic.ExistsUnique

/-!
# Index and documents agree

A log is `Coherent` if its two views are of the same events: each stream's versions count from zero and their places
ascend, the document at the place of a version is labelled with the stream and the version, and each place belongs to a
stream. Encoding labels every document, whatever is in the event (`Codec.labelled_of_encode`), so that appends keep a
log coherent (`Coherent.append`). Then each place has exactly one owner (`Coherent.existsUnique_owner`), and the
documents that say they belong to a stream are those that its index leads to, in the same order
(`Coherent.filter_belongsTo`); the index cuts parts out of them (`Coherent.slice_eq`).
-/

namespace Chronicle

namespace Codec

/-! ## Labels -/

/-- The stream's fields of a document: it is the event of this version of this stream. -/
structure Labelled (stream : String) (version : Nat) (d : Document) : Prop where
  streamId : Fields.get? streamIdField d = some (.string stream)
  streamVersion : Fields.get? streamVersionField d = some (.int64 (Int64.ofNat version))
  version_le : version ≤ 0x7FFFFFFFFFFFFFFF

/-- Whether a document says that it belongs to a stream. -/
def belongsTo (stream : String) (d : Document) : Bool :=
  match Fields.get? streamIdField d with
  | some (.string s) => s = stream
  | _ => false

variable {c : Codec} {e : Event} {stream stream' : String} {v v' : Nat} {d : Document}

theorem belongsTo_iff : belongsTo stream d = true ↔ Fields.get? streamIdField d = some (.string stream) := by
  unfold belongsTo
  split
  · rename_i s hs
    simp [hs]
  · rename_i hs
    simpa using hs stream

theorem Labelled.belongsTo_iff (h : Labelled stream v d) : belongsTo stream' d = true ↔ stream = stream' := by
  rw [Codec.belongsTo_iff, h.streamId]
  simp

/-- A document has one label. -/
theorem Labelled.unique (h : Labelled stream v d) (h' : Labelled stream' v' d) : stream = stream' ∧ v = v' := by
  have hs : some (Bson.string stream) = some (.string stream') := h.streamId.symm.trans h'.streamId
  have hv : some (Bson.int64 (Int64.ofNat v)) = some (.int64 (Int64.ofNat v')) :=
    h.streamVersion.symm.trans h'.streamVersion
  simp only [Option.some.injEq, Bson.string.injEq, Bson.int64.injEq] at hs hv
  have hle := h.version_le
  have hle' := h'.version_le
  have hi : (Int64.ofNat v).toInt = v := Int64.toInt_ofNat_of_lt (by omega)
  have hi' : (Int64.ofNat v').toInt = v' := Int64.toInt_ofNat_of_lt (by omega)
  rw [hv, hi'] at hi
  exact ⟨hs, by omega⟩

theorem get?_dated {name : String} (hn : timeField ≠ name) (d : Document) (date : Option Int64) :
    Fields.get? name (dated d date) = Fields.get? name d := by
  cases date with
  | none => rfl
  | some millis => rw [dated, Fields.get?_set, if_neg hn]

/-- Encoding labels the document, whatever the event has under the names of the stream's fields. -/
theorem labelled_of_encode (h : c.encode e stream (some v) = .ok d) : Labelled stream v d := by
  obtain ⟨-, date, bytes, fields, d', -, -, -, hv, rfl⟩ := encode_eq_ok_iff.1 h
  obtain ⟨hle, rfl⟩ := versioned_some_eq_ok_iff.1 hv
  constructor
  case streamId =>
    rw [get?_dated (by decide), Fields.get?_set, if_neg (by decide), Fields.get?_set, if_pos rfl]
  case streamVersion => rw [get?_dated (by decide), Fields.get?_set, if_pos rfl]
  case version_le => exact hle

/-- Each document of a batch is labelled with its version. -/
theorem labelled_of_encodeAll {first : Nat} {es : List Event} {ds : List Document}
    (h : c.encodeAll stream first es = .ok ds) {i : Nat} (hd : ds[i]? = some d) : Labelled stream (first + i) d := by
  have hlt : i < es.length := by
    rw [← length_encodeAll h]
    exact (List.getElem?_eq_some_iff.1 hd).1
  obtain ⟨d', hd', hen⟩ := getElem?_encodeAll h (List.getElem?_eq_getElem hlt)
  rw [hd] at hd'
  cases hd'
  exact labelled_of_encode hen

end Codec

namespace EventLog

open Codec (Labelled belongsTo)

variable {codec : Codec} {log log' : EventLog} {stream other : String} {expected : ExpectedVersion}
  {events : List Event} {r : AppendResult} {batch : List Document}

/-! ## Coherent logs -/

/-- The index and the documents are two views of the same events. -/
structure Coherent (log : EventLog) : Prop extends Gapless log where
  ascending : ∀ stream, (log.index stream).places.Pairwise (· < ·)
  labelled : ∀ stream, ∀ e ∈ log.index stream, ∃ d, log.documents[e.2]? = some d ∧ Labelled stream e.1 d
  owned : ∀ place < log.size, ∃ stream v, (v, place) ∈ log.index stream

theorem coherent_empty : empty.Coherent where
  toGapless := gapless_empty
  ascending _ := .nil
  labelled _ _ h := by cases h
  owned place h := absurd h (Nat.not_lt_zero place)

theorem Gapless.places_extend (h : log.Gapless) (stream : String) (batch : List Document) :
    ((log.extend stream (log.count stream) batch).index stream).places =
      (log.index stream).places ++ List.range' log.size batch.length := by
  rw [VersionIndex.places, h.index_extend, List.map_append, List.map_map, List.range'_eq_map_range]
  rfl

/-- The new places are behind all others. -/
theorem Coherent.ascending_extend (h : log.Coherent) (stream : String) (batch : List Document) (other : String) :
    ((log.extend stream (log.count stream) batch).index other).places.Pairwise (· < ·) := by
  by_cases hs : stream = other
  · subst hs
    rw [h.places_extend, List.pairwise_append]
    refine ⟨h.ascending stream, List.pairwise_lt_range', ?_⟩
    intro p hp q hq
    obtain ⟨e, he, rfl⟩ := List.mem_map.1 hp
    have hlt := h.place_lt stream e he
    have hle := (List.mem_range'_1.1 hq).1
    omega
  · rw [index_extend_of_ne hs]
    exact h.ascending other

/-- Old places keep their documents, and the new ones have those of the batch. -/
theorem Coherent.labelled_extend (h : log.Coherent)
    (hb : ∀ i d, batch[i]? = some d → Labelled stream (log.count stream + i) d) (other : String) :
    ∀ e ∈ (log.extend stream (log.count stream) batch).index other,
      ∃ d, (log.documents ++ batch)[e.2]? = some d ∧ Labelled other e.1 d := by
  have hold : ∀ e ∈ log.index other, ∃ d, (log.documents ++ batch)[e.2]? = some d ∧ Labelled other e.1 d := by
    intro e he
    obtain ⟨d, hd, hl⟩ := h.labelled other e he
    refine ⟨d, ?_, hl⟩
    rw [List.getElem?_append_left (h.place_lt other e he), hd]
  intro e he
  by_cases hs : stream = other
  · subst hs
    rw [h.index_extend] at he
    rcases List.mem_append.1 he with he | he
    · exact hold e he
    · obtain ⟨i, hi, rfl⟩ := List.mem_map.1 he
      have hd := List.getElem?_eq_getElem (List.mem_range.1 hi)
      refine ⟨_, ?_, hb i _ hd⟩
      simp [size, List.getElem?_append_right]
  · rw [index_extend_of_ne hs] at he
    exact hold e he

theorem Coherent.owned_extend (h : log.Coherent) (stream : String) (batch : List Document) :
    ∀ place < log.size + batch.length,
      ∃ other v, (v, place) ∈ (log.extend stream (log.count stream) batch).index other := by
  intro place hp
  by_cases hlt : place < log.size
  · obtain ⟨other, v, hv⟩ := h.owned place hlt
    refine ⟨other, v, ?_⟩
    by_cases hs : stream = other
    · subst hs
      rw [h.index_extend]
      exact List.mem_append_left _ hv
    · rwa [index_extend_of_ne hs]
  · refine ⟨stream, log.count stream + (place - log.size), ?_⟩
    rw [h.index_extend]
    refine List.mem_append_right _ (List.mem_map.2 ⟨place - log.size, List.mem_range.2 (by omega), ?_⟩)
    exact Prod.ext rfl (by dsimp only; omega)

theorem Coherent.extend (h : log.Coherent)
    (hb : ∀ i d, batch[i]? = some d → Labelled stream (log.count stream + i) d) :
    (log.extend stream (log.count stream) batch).Coherent where
  toGapless := h.toGapless.extend stream batch
  ascending := h.ascending_extend stream batch
  labelled := h.labelled_extend hb
  owned := by
    rw [size_extend]
    exact h.owned_extend stream batch

/-- An append keeps a log coherent, whatever events it brings. -/
theorem Coherent.append (h : log.Coherent) (ha : log.append codec stream expected events = .ok (r, log')) :
    log'.Coherent := by
  obtain ⟨-, -, batch, hb, -, rfl⟩ := (append_eq_ok_iff h.toGapless).1 ha
  split
  · exact h
  · exact h.extend fun i d hd => Codec.labelled_of_encodeAll hb hd

/-! ## Two views of a stream -/

/-- Versions and places ascend together. -/
theorem Coherent.pairwise_index (h : log.Coherent) (stream : String) :
    (log.index stream).Pairwise fun e e' => e.1 < e'.1 ∧ e.2 < e'.2 := by
  have hv : ((log.index stream).map Prod.fst).Pairwise (· < ·) := by
    rw [h.versions]
    exact List.pairwise_lt_range
  exact (List.pairwise_map.1 hv).and (List.pairwise_map.1 (h.ascending stream))

/-- Each place is that of exactly one version of one stream. -/
theorem Coherent.existsUnique_owner (h : log.Coherent) {place : Nat} (hp : place < log.size) :
    ∃! owner : String × Nat, (owner.2, place) ∈ log.index owner.1 := by
  obtain ⟨stream, v, hv⟩ := h.owned place hp
  refine ⟨(stream, v), hv, ?_⟩
  rintro ⟨stream', v'⟩ hv'
  obtain ⟨d, hd, hl⟩ := h.labelled stream _ hv
  obtain ⟨d', hd', hl'⟩ := h.labelled stream' _ hv'
  rw [hd] at hd'
  cases hd'
  obtain ⟨rfl, rfl⟩ := hl.unique hl'
  rfl

/-- The places of a stream are those whose documents say that they belong to it. -/
theorem Coherent.mem_places_iff (h : log.Coherent) {place : Nat} :
    place ∈ (log.index stream).places ↔ ∃ d, log.documents[place]? = some d ∧ belongsTo stream d = true := by
  constructor
  · intro hp
    obtain ⟨e, he, rfl⟩ := List.mem_map.1 hp
    obtain ⟨d, hd, hl⟩ := h.labelled stream e he
    exact ⟨d, hd, hl.belongsTo_iff.2 rfl⟩
  · rintro ⟨d, hd, hb⟩
    obtain ⟨owner, v, hv⟩ := h.owned place (List.getElem?_eq_some_iff.1 hd).1
    obtain ⟨d', hd', hl⟩ := h.labelled owner _ hv
    rw [hd] at hd'
    cases hd'
    obtain rfl := hl.belongsTo_iff.1 hb
    exact List.mem_map.2 ⟨_, hv, rfl⟩

/-- The items that pass a test, through the places of those that do. -/
theorem filterMap_filter_range {α : Type} (p : α → Bool) (xs : List α) :
    ((List.range xs.length).filter fun i => xs[i]?.any p).filterMap (fun i => xs[i]?) = xs.filter p := by
  induction xs with
  | nil => rfl
  | cons x xs ih =>
    rw [List.length_cons, List.range_succ_eq_map, List.filter_cons, List.filter_map]
    have htail : (((List.range xs.length).filter ((fun i => (x :: xs)[i]?.any p) ∘ Nat.succ)).map Nat.succ).filterMap
        (fun i => (x :: xs)[i]?) = xs.filter p := by
      rw [List.filterMap_map]
      exact ih
    cases hx : p x with
    | true => simp [hx, htail]
    | false => simp [hx, htail]

/-- The places of a stream, in order of its versions, are those of its documents in order of the log. -/
theorem Coherent.places_eq (h : log.Coherent) (stream : String) :
    (log.index stream).places =
      (List.range log.size).filter fun i => log.documents[i]?.any (belongsTo stream) := by
  have hr : ((List.range log.size).filter fun i => log.documents[i]?.any (belongsTo stream)).Pairwise (· < ·) :=
    List.pairwise_lt_range.filter _
  -- two ascending lists are the same if they have the same members
  refine List.Perm.eq_of_pairwise (fun a b _ _ hab hba => absurd hab (Nat.lt_asymm hba)) (h.ascending stream) hr ?_
  refine (List.perm_ext_iff_of_nodup ((h.ascending stream).imp Nat.ne_of_lt) (hr.imp Nat.ne_of_lt)).2 fun place => ?_
  rw [h.mem_places_iff, List.mem_filter, List.mem_range, Option.any_eq_true]
  constructor
  · rintro ⟨d, hd, hb⟩
    exact ⟨(List.getElem?_eq_some_iff.1 hd).1, d, hd, hb⟩
  · rintro ⟨-, hd⟩
    exact hd

/-- The documents that say they belong to a stream, in order of the log, are those that its index leads to, in order
of the versions. -/
theorem Coherent.filter_belongsTo (h : log.Coherent) (stream : String) :
    log.documents.filter (belongsTo stream) = log.documentsOf stream := by
  rw [documentsOf, slice, List.drop_zero, h.places_eq]
  exact (filterMap_filter_range _ log.documents).symm

/-! ## Parts of a stream -/

/-- If a function is defined on each member of a list, its values are those that it is mapped to. -/
theorem map_some_filterMap {α β : Type} {f : α → Option β} {xs : List α} (h : ∀ x ∈ xs, ∃ y, f x = some y) :
    (xs.filterMap f).map some = xs.map f := by
  induction xs with
  | nil => rfl
  | cons x xs ih =>
    obtain ⟨⟨y, hy⟩, h⟩ := List.forall_mem_cons.1 h
    rw [List.filterMap_cons_some hy, List.map_cons, List.map_cons, ih h, hy]

/-- Each version of a stream has a document. -/
theorem Coherent.map_some_documentsOf (h : log.Coherent) (stream : String) :
    (log.documentsOf stream).map some = (log.index stream).map fun e => log.documents[e.2]? := by
  rw [documentsOf_eq]
  refine map_some_filterMap fun e he => ?_
  obtain ⟨d, hd, -⟩ := h.labelled stream e he
  exact ⟨d, hd⟩

theorem Coherent.length_documentsOf (h : log.Coherent) (stream : String) :
    (log.documentsOf stream).length = log.count stream := by
  have hlen := congrArg List.length (h.map_some_documentsOf stream)
  rwa [List.length_map, List.length_map] at hlen

/-- The documents of a stream are labelled with the versions from zero on. -/
theorem Coherent.labelled_documentsOf (h : log.Coherent) {i : Nat} {d : Document}
    (hd : (log.documentsOf stream)[i]? = some d) : Labelled stream i d := by
  have hmap := congrArg (·[i]?) (h.map_some_documentsOf stream)
  simp only [List.getElem?_map, hd, Option.map_some] at hmap
  obtain ⟨e, he, hed⟩ := Option.map_eq_some_iff.1 hmap.symm
  obtain ⟨d', hd', hl⟩ := h.labelled stream e (List.mem_of_getElem? he)
  rw [hd'] at hed
  cases hed
  -- the version of the `i`-th entry is `i`
  have hv := congrArg (·[i]?) (h.versions stream)
  have hlt : i < (log.index stream).length := (List.getElem?_eq_some_iff.1 he).1
  simp only [List.getElem?_map, he, Option.map_some, List.getElem?_range hlt, Option.some.injEq] at hv
  exact hv ▸ hl

/-- A part of a stream is cut out of its documents. -/
theorem Coherent.slice_eq (h : log.Coherent) (stream : String) (skip : Nat) (limit : Option Nat) :
    log.slice stream skip limit =
      match limit with
      | some n => ((log.documentsOf stream).drop skip).take n
      | none => (log.documentsOf stream).drop skip := by
  have hplaces : ∀ place ∈ (log.index stream).places, ∃ d, log.documents[place]? = some d := by
    intro place hp
    obtain ⟨e, he, rfl⟩ := List.mem_map.1 hp
    obtain ⟨d, hd, -⟩ := h.labelled stream e he
    exact ⟨d, hd⟩
  have hall : (log.documentsOf stream).map some = (log.index stream).places.map fun i => log.documents[i]? := by
    rw [h.map_some_documentsOf, VersionIndex.places, List.map_map]
    rfl
  refine List.map_injective_iff.2 (fun _ _ => Option.some.inj) ?_
  cases limit with
  | none =>
    rw [slice, map_some_filterMap fun place hp => hplaces place (List.mem_of_mem_drop hp), List.map_drop, ← hall,
      ← List.map_drop]
  | some n =>
    rw [slice, map_some_filterMap fun place hp => hplaces place (List.mem_of_mem_drop (List.mem_of_mem_take hp)),
      List.map_take, List.map_drop, ← hall, ← List.map_drop, ← List.map_take]

end EventLog

/-- The log of a history is coherent. -/
theorem History.coherent_run (codec : Codec) (calls : List AppendCall) : (History.run codec calls).log.Coherent :=
  run_induct (P := fun h => h.log.Coherent) EventLog.coherent_empty (fun _ _ _ _ h ha => h.append ha)
    (fun _ _ _ h _ => h) calls

end Chronicle
