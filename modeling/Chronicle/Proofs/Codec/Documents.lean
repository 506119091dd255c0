import Chronicle.Proofs.Bson.WellFormed
import Chronicle.Proofs.Codec.Decoding
import Chronicle.Proofs.Codec.Times
import Chronicle.Proofs.Event.Stability
import Chronicle.Proofs.Json.Rereading

/-!
# Any document

A document need not have been written by a codec to be decoded. Its own fields are written as JSON and read again as the
members of an envelope (`Codec.deserialize_document_iff`), and these decide about the event by their names alone. So the
order of a document's fields does not matter (`Codec.decode_perm`). A date is no text for a codec that stores times as
text, but all that this codec decodes is decoded alike by one that stores times as dates (`Codec.decode_switch`).
-/

namespace Chronicle

open Fields (get? Distinct)

/-- An event is read from the same values under the same names. -/
theorem Event.ReadFrom.congr {e : Event} {ms ms' : List (String × Json)} (h : e.ReadFrom ms)
    (heq : ∀ name, get? name ms = get? name ms') : e.ReadFrom ms' := by
  obtain ⟨hversion, hid, hsource, htype, htime, hsubject, hct, hpayload, hextension⟩ := h
  simp only [heq] at hversion hid hsource htype htime hsubject hct hpayload hextension
  exact ⟨hversion, hid, hsource, htype, htime, hsubject, hct, hpayload, hextension⟩

namespace Codec

variable {d d' fields fields' : Document} {e : Event} {r : StreamEvent} {times : TimeRepresentation}

/-! ## The members of an envelope -/

/-- The members that the format finds in the text of fields. -/
def membersOf (fields : Document) : List (String × Json) := fields.map fun f => (f.1, (Bson.toJson f.2).reread)

theorem get?_membersOf (name : String) (fields : Document) :
    get? name (membersOf fields) = (get? name fields).map fun b => (Bson.toJson b).reread :=
  Fields.get?_map (fun b : Bson => (Bson.toJson b).reread) fields name

/-- The text of a document is read as an event just if no field nests too deep and its members say so. -/
theorem deserialize_document_iff (hw : (Bson.document fields).WellFormed) :
    Event.deserialize (Bson.toJson (.document fields)).text.toUTF8 = .ok e ↔
      (∀ f ∈ fields, (Bson.toJson f.2).depth ≤ 126) ∧ e.ReadFrom (membersOf fields) := by
  have hmembers : (Bson.toJson (.document fields)).reread = .object (membersOf fields) := by
    rw [Bson.toJson, Json.reread, Json.rereadMembers_eq, Bson.toJsonMembers_eq, List.map_map]
    rfl
  have hdepth : (Bson.toJson (.document fields)).depth ≤ 127 ↔ ∀ f ∈ fields, (Bson.toJson f.2).depth ≤ 126 := by
    rw [Bson.toJson, Json.depth, Nat.succ_le_succ_iff, Json.depthOfMembers_le_iff, Bson.toJsonMembers_eq,
      List.forall_mem_map]
  rw [Event.deserialize_eq_ok_iff, Json.read_text_eq hw.writtenWell.plain, hmembers]
  simp only [hdepth]
  split
  · rename_i hl
    constructor
    · rintro ⟨ms, hms, hr⟩
      cases hms
      exact ⟨hl, hr⟩
    · rintro ⟨-, hr⟩
      exact ⟨_, rfl, hr⟩
  · rename_i hl
    constructor
    · rintro ⟨ms, hms, -⟩
      cases hms
    · rintro ⟨h, -⟩
      exact absurd h hl

/-! ## Order -/

section

variable (hw : (Bson.document d).WellFormed) (hp : d.Perm d')
include hw hp

theorem ownFields_perm : (ownFields d).Perm (ownFields d') := by
  have hi := Fields.erase_perm hw.distinct hp internalIdField
  have hs := Fields.erase_perm (hw.distinct.erase _) hi streamIdField
  exact Fields.erase_perm ((hw.distinct.erase _).erase _) hs streamVersionField

/-- The same fields are given to the format, in another order. -/
theorem withTextTime_perm (c : Codec) (h : c.withTextTime d = .ok fields) :
    ∃ fields', c.withTextTime d' = .ok fields' ∧ fields.Perm fields' := by
  have hdate : c.dateToWrite? d' = c.dateToWrite? d := by
    rw [dateToWrite?, dateToWrite?, Fields.get?_perm hw.distinct hp]
  rcases withTextTime_eq_ok_iff.1 h with ⟨hnone, rfl⟩ | ⟨millis, text, hsome, htext, rfl⟩
  · exact ⟨d', withTextTime_eq_ok_iff.2 (.inl ⟨hdate.trans hnone, rfl⟩), hp⟩
  · exact ⟨_, withTextTime_eq_ok_iff.2 (.inr ⟨millis, text, hdate.trans hsome, htext, rfl⟩),
      Fields.set_perm hw.distinct hp _ _⟩

theorem deserialize_perm (h : Event.deserialize (Bson.toJson (.document d)).text.toUTF8 = .ok e) :
    Event.deserialize (Bson.toJson (.document d')).text.toUTF8 = .ok e := by
  obtain ⟨hdepth, hr⟩ := (deserialize_document_iff hw).1 h
  refine (deserialize_document_iff (hw.perm hp)).2 ⟨fun f hf => hdepth f (hp.symm.subset hf), hr.congr fun name => ?_⟩
  rw [get?_membersOf, get?_membersOf, Fields.get?_perm hw.distinct hp]

end

theorem wellFormed_ownFields (hw : (Bson.document d).WellFormed) : (Bson.document (ownFields d)).WellFormed :=
  ((hw.erase _).erase _).erase _

theorem wellFormed_withTextTime (hw : (Bson.document d).WellFormed) {c : Codec} (h : c.withTextTime d = .ok fields) :
    (Bson.document fields).WellFormed := by
  rcases withTextTime_eq_ok_iff.1 h with ⟨-, rfl⟩ | ⟨-, text, -, -, rfl⟩
  · exact hw
  · exact hw.set _ (.atomic trivial)

theorem decode_of_perm (hw : (Bson.document d).WellFormed) (hp : d.Perm d') (h : (json times).decode d = .ok r) :
    (json times).decode d' = .ok r := by
  obtain ⟨hs, hv, fields, ht, he⟩ := decode_eq_ok_iff.1 h
  have hown := wellFormed_ownFields hw
  obtain ⟨fields', ht', hperm⟩ := withTextTime_perm hown (ownFields_perm hw hp) _ ht
  refine decode_eq_ok_iff.2 ⟨?_, ?_, fields', ht', deserialize_perm (wellFormed_withTextTime hown ht) hperm he⟩
  · rw [← hs, streamOf, streamOf, Fields.get?_perm hw.distinct hp]
  · rw [← hv, versionOf, versionOf, Fields.get?_perm hw.distinct hp]

/-- **Order of fields**: documents with the same fields are decoded as the same event at the same place, or not at all,
whatever the order of the fields. -/
theorem decode_perm (hw : (Bson.document d).WellFormed) (hp : d.Perm d') (times : TimeRepresentation)
    (r : StreamEvent) : (json times).decode d = .ok r ↔ (json times).decode d' = .ok r :=
  ⟨decode_of_perm hw hp, decode_of_perm (hw.perm hp) hp.symm⟩

/-- A document with the key of a database in front and some value for its time. -/
def filed (time : Bson) : Document :=
  [(internalIdField, .objectId ⟨List.replicate 12 7, rfl⟩), ("specversion", .string "1.0"), ("id", .string "7"),
    ("source", .string "/meters/4"), ("type", .string "meter.read"), (timeField, time),
    ("data", .document [("unit", .string "kWh"), ("by", .array [.int32 3, .null])]), ("tenant", .string "x"),
    (streamIdField, .string "meter-4"), (streamVersionField, .int32 12)]

/-- The event of such a document. -/
def filedEvent (t : Timestamp) : Event where
  id := "7"
  source := "/meters/4"
  type := "meter.read"
  time := some t
  subject := none
  contentType := none
  payload := some (.json (.object [("unit", .string "kWh"), ("by", .array [.integer (.ofInt64 3), .null])]))
  extensions := .ofList [("tenant", .string "x")]

theorem wellFormed_filed {time : Bson} (h : time.WellFormed) : (Bson.document (filed time)).WellFormed := by
  have hby : (Bson.array [.int32 3, .null]).WellFormed := by
    refine .array fun b hb => ?_
    simp only [List.mem_cons, List.not_mem_nil, or_false] at hb
    rcases hb with rfl | rfl
    · exact .atomic trivial
    · exact .null
  have hdata : (Bson.document [("unit", .string "kWh"), ("by", .array [.int32 3, .null])]).WellFormed := by
    refine .document (show ["unit", "by"].Nodup by decide) ?_
    simp only [List.forall_mem_cons]
    exact ⟨.atomic trivial, hby, nofun⟩
  have hnames : ["_id", "specversion", "id", "source", "type", "time", "data", "tenant", "streamId",
    "streamVersion"].Nodup := by decide
  refine .document hnames ?_
  simp only [filed, List.forall_mem_cons]
  exact ⟨.atomic trivial, .atomic trivial, .atomic trivial, .atomic trivial, .atomic trivial, h, hdata, .atomic trivial,
    .atomic trivial, .atomic trivial, nofun⟩

theorem readFrom_filed {text : String} {t : Timestamp} (ht : Timestamp.ofRfc3339 text = .ok t) :
    (filedEvent t).ReadFrom (membersOf (ownFields (filed (.string text)))) where
  specVersion _ hv := by
    cases hv
    rfl
  id := rfl
  source := rfl
  type := rfl
  time := ⟨text, rfl, ht⟩
  subject := .inl rfl
  contentType := .inl rfl
  payload := ⟨.inl rfl, rfl, nofun, nofun⟩
  extension name := by
    have hd : Distinct (membersOf (ownFields (filed (.string text)))) :=
      show ["specversion", "id", "source", "type", "time", "data", "tenant"].Nodup by decide
    have hx := (Event.ofList_extensionsOfMembers_iff (Event.distinct_without (Event.takenNames (filedEvent t).payload)
      hd)).1 ⟨_, rfl, rfl⟩
    rw [← Event.get?_without _ hd]
    exact hx name

/-- The document is decoded, if its time is a text of a time, or becomes one. -/
theorem decode_filed {time : Bson} {text : String} {t : Timestamp} (ht : Timestamp.ofRfc3339 text = .ok t)
    (h : (json times).withTextTime (ownFields (filed time)) = .ok (ownFields (filed (.string text)))) :
    (json times).decode (filed time) = .ok ⟨"meter-4", 12, filedEvent t⟩ := by
  have hw : (Bson.document (ownFields (filed (.string text)))).WellFormed :=
    wellFormed_ownFields (wellFormed_filed (.atomic trivial))
  refine decode_eq_ok_iff.2 ⟨rfl, rfl, _, h, (deserialize_document_iff hw).2 ⟨?_, readFrom_filed ht⟩⟩
  show ∀ f ∈ [("specversion", Bson.string "1.0"), ("id", .string "7"), ("source", .string "/meters/4"),
    ("type", .string "meter.read"), ("time", .string text),
    ("data", .document [("unit", .string "kWh"), ("by", .array [.int32 3, .null])]), ("tenant", .string "x")],
    (Bson.toJson f.2).depth ≤ 126
  simp [Bson.toJson, Bson.scalarToJson, Bson.toJsonMembers, Bson.toJsonItems, Json.depth, Json.depthOfMembers,
    Json.depthOfItems]

theorem keeps_newYear : TimeRepresentation.nativeDate.Keeps newYear :=
  ⟨by decide, by decide, by decide, by decide, by decide⟩

/-- The date of the first second of 2017. -/
def newYearDate : Int64 := Int64.ofInt newYear.millis

theorem decode_filed_date :
    (json .nativeDate).decode (filed (.date newYearDate)) = .ok ⟨"meter-4", 12, filedEvent newYear⟩ := by
  refine decode_filed (TimeRepresentation.ofRfc3339_millis keeps_newYear) (withTextTime_eq_ok_iff.2 (.inr ?_))
  exact ⟨newYearDate, _, rfl, TimeRepresentation.textOfNativeDate_ok keeps_newYear, rfl⟩

theorem decode_perm_filed :
    (Bson.document (filed (.date newYearDate))).WellFormed ∧
      (filed (.date newYearDate)).Perm (filed (.date newYearDate)).reverse ∧
      (json .nativeDate).decode (filed (.date newYearDate)).reverse = .ok ⟨"meter-4", 12, filedEvent newYear⟩ := by
  have hw := wellFormed_filed (.atomic trivial : (Bson.date newYearDate).WellFormed)
  have hp := (List.reverse_perm (filed (.date newYearDate))).symm
  exact ⟨hw, hp, (decode_perm hw hp _ _).1 decode_filed_date⟩

/-! ## Text and dates -/

/-- A date is written as an object. -/
theorem reread_date (millis : Int64) : ∃ ms, (Bson.toJson (.date millis)).reread = .object ms := by
  rw [Bson.toJson, Bson.dateToJson]
  dsimp only
  split
  · exact ⟨_, rfl⟩
  · exact ⟨_, rfl⟩

/-- No event has an object for its time. -/
theorem not_readFrom_of_object {ms members : List (String × Json)} (h : get? "time" ms = some (.object members)) :
    ¬e.ReadFrom ms := by
  intro hr
  have ht := hr.time
  rw [h] at ht
  cases htime : e.time with
  | none =>
    rw [htime] at ht
    rcases ht with ht | ht <;> cases ht
  | some t =>
    rw [htime] at ht
    obtain ⟨text, ht, -⟩ := ht
    cases ht

/-- A codec that stores times as text decodes no document with a date for its time. -/
theorem exists_decode_error_of_date (hw : (Bson.document d).WellFormed) {millis : Int64}
    (hd : get? timeField d = some (.date millis)) : ∃ problem, (json .rfc3339String).decode d = .error problem := by
  cases h : (json .rfc3339String).decode d with
  | error problem => exact ⟨problem, rfl⟩
  | ok r =>
    obtain ⟨-, -, fields, ht, he⟩ := decode_eq_ok_iff.1 h
    cases (show (json .rfc3339String).withTextTime (ownFields d) = .ok (ownFields d) from rfl).symm.trans ht
    obtain ⟨ms, hms⟩ := reread_date millis
    have hobject : get? "time" (membersOf (ownFields d)) = some (.object ms) := by
      rw [get?_membersOf, ← hms, show "time" = timeField from rfl, get?_time_ownFields, hd]
      rfl
    have hr := ((deserialize_document_iff (wellFormed_ownFields hw)).1 he).2
    exact absurd hr (not_readFrom_of_object hobject)

/-- Where there is no date for the time, it does not matter how times are stored. -/
theorem decode_of_no_date (h : ∀ millis, get? timeField d ≠ some (.date millis)) (times times' : TimeRepresentation) :
    (json times).decode d = (json times').decode d := by
  have hown : ∀ millis, get? timeField (ownFields d) ≠ some (.date millis) := by
    rwa [get?_time_ownFields]
  rw [decode_eq, decode_eq, withTextTime_eq, withTextTime_eq, dateToWrite?_of_no_date _ hown,
    dateToWrite?_of_no_date _ hown]
  rfl

/-- **Switching from text to dates**: what a codec decodes that stores times as text, one that stores them as dates
decodes alike. Where the time is no date they agree in everything, and where it is one the former fails. -/
theorem decode_switch (hw : (Bson.document d).WellFormed) :
    (∀ r, (json .rfc3339String).decode d = .ok r → (json .nativeDate).decode d = .ok r) ∧
      ((∀ millis, get? timeField d ≠ some (.date millis)) →
        (json .rfc3339String).decode d = (json .nativeDate).decode d) ∧
      ∀ millis, get? timeField d = some (.date millis) →
        ∃ problem, (json .rfc3339String).decode d = .error problem := by
  refine ⟨fun r h => ?_, fun h => decode_of_no_date h _ _, fun millis hd => exists_decode_error_of_date hw hd⟩
  by_cases hd : ∃ millis, get? timeField d = some (.date millis)
  · obtain ⟨millis, hd⟩ := hd
    obtain ⟨problem, herror⟩ := exists_decode_error_of_date hw hd
    rw [herror] at h
    cases h
  · rwa [decode_of_no_date (not_exists.1 hd) _ .rfc3339String]

theorem decode_switch_filed :
    (Bson.document (filed (.string "2023-11-14T23:15:00+01:00"))).WellFormed ∧
      (json .nativeDate).decode (filed (.string "2023-11-14T23:15:00+01:00")) =
        .ok ⟨"meter-4", 12, filedEvent quarterPast⟩ ∧
      ∃ problem, (json .rfc3339String).decode (filed (.date newYearDate)) = .error problem := by
  have hw := wellFormed_filed (.atomic trivial : (Bson.string "2023-11-14T23:15:00+01:00").WellFormed)
  have hdate := wellFormed_filed (.atomic trivial : (Bson.date newYearDate).WellFormed)
  exact ⟨hw, (decode_switch hw).1 _ (decode_filed (by decide +kernel) rfl), (decode_switch hdate).2.2 newYearDate rfl⟩

end Codec

end Chronicle
