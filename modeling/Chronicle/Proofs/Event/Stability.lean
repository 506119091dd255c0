import Chronicle.Proofs.Event.RoundTrip
import Chronicle.Proofs.Json.Rereading

/-!
# Events that were read are read again

Texts of events are far more various than the texts that are written: null stands for a missing attribute, a repeated
name takes its last value, extensions may have any names, and times may be written in several ways. Reading forgets all
that, and what is left of it is `Unambiguous`: no extension is taken for an attribute or the other way round, the
payload's kind can be told, and the time can be written (`ReadFrom.unambiguous`). Such events, and no others, are what
their envelopes are read as (`ofJson_members_eq_ok_iff`). So an event that was read from any bytes at all is read again
from the text that is written for it (`deserialize_stable`).
-/

namespace Chronicle.Event

open Fields (get? Distinct)

variable {e : Event} {ms : List (String × Json)} {bytes : ByteArray}

/-! ## Envelopes that tell everything -/

/-- An event whose envelope tells everything about it. The name `data` is free for an extension beside bytes, which are
written under another one. -/
structure Unambiguous (e : Event) : Prop where
  apart : ∀ x ∈ e.extensions.entries, x.1 ∉ takenNames e.payload
  payload : Fits e.contentType e.payload
  time : ∀ t, e.time = some t → t.Writable

/-- Whatever an event is read from, its envelope tells everything about it. -/
theorem ReadFrom.unambiguous (h : e.ReadFrom ms) : e.Unambiguous where
  apart := by
    intro x hx hn
    have hname := h.extension x.1
    have hget : e.extensions.get? x.1 = some x.2 := by
      rw [NameMap.get?_eq]
      exact Fields.get?_of_mem e.extensions.distinct_entries hx
    rw [if_pos hn, hget] at hname
    cases hname
  payload := h.payload.fits
  time := by
    intro t ht
    have htime := h.time
    rw [ht] at htime
    obtain ⟨text, -, hread⟩ := htime
    exact Timestamp.writable_of_ofRfc3339 hread

namespace Unambiguous

theorem distinct (h : e.Unambiguous) : Distinct e.members :=
  distinct_members fun x hx hm => h.apart x hx ((names_attributes_taken e).subset hm)

theorem get?_extensions (h : e.Unambiguous) {name : String} (hn : name ∈ takenNames e.payload) :
    e.extensions.get? name = none := by
  rw [NameMap.get?_eq, Fields.get?_eq_none_iff]
  intro hm
  obtain ⟨x, hx, rfl⟩ := List.mem_map.1 hm
  exact h.apart x hx hn

/-- What stands under a name that is taken out is an attribute. -/
theorem get?_members (h : e.Unambiguous) {name : String} (hn : name ∈ takenNames e.payload) :
    get? name e.members = get? name e.attributes := by
  rw [Event.get?_members, h.get?_extensions hn]
  exact Option.or_none

/-- The envelope of such an event is one that it is read from. -/
theorem readFrom (h : e.Unambiguous) : e.ReadFrom e.members := by
  have hg (name : String) (hn : name ∈ attributeNames) (ho : name ≠ "data") :
      get? name e.members = get? name e.attributes := by
    refine h.get?_members ?_
    by_contra ht
    exact ho (eq_data_of_not_mem hn ht).1
  constructor
  case specVersion =>
    intro v hv
    rw [hg _ (by decide) (by decide)] at hv
    cases hv
    rfl
  case id | source | type => exact hg _ (by decide) (by decide)
  case time =>
    rw [hg _ (by decide) (by decide)]
    cases ht : e.time with
    | none =>
      left
      simp [attributes, ht, Fields.get?_append, get?_optionalMember, get?_payloadMember, get?]
    | some t =>
      refine ⟨t.rfc3339 .nanos, ?_, Timestamp.ofRfc3339_rfc3339 (h.time t ht) trivial⟩
      simp [attributes, ht, Fields.get?_append, get?_optionalMember, get?]
  case subject | contentType =>
    refine stringAt_of_eq ?_
    rw [hg _ (by decide) (by decide)]
    simp [attributes, Fields.get?_append, get?_optionalMember, get?_payloadMember, get?]
  case payload =>
    have hbytes : get? "data_base64" e.members = get? "data_base64" (payloadMember e.payload) := by
      rw [hg _ (by decide) (by decide)]
      simp [attributes, Fields.get?_append, get?_optionalMember, get?]
    have hp := h.payload.payloadAt
    rw [← hbytes] at hp
    by_cases ht : "data" ∈ takenNames e.payload
    · have hdata : get? "data" e.members = get? "data" (payloadMember e.payload) := by
        rw [h.get?_members ht]
        simp [attributes, Fields.get?_append, get?_optionalMember, get?]
      rwa [← hdata] at hp
    · -- beside bytes it does not matter what stands under `data`
      obtain ⟨-, bytes, hpay⟩ := eq_data_of_not_mem (by decide) ht
      rw [hpay] at hp ⊢
      exact hp
  case extension =>
    intro name
    by_cases ht : name ∈ takenNames e.payload
    · rw [if_pos ht, h.get?_extensions ht]
      rfl
    · rw [if_neg ht, Event.get?_members, Fields.get?_eq_none_iff.2 fun hm => ht ((names_attributes_taken e).subset hm)]
      rfl

end Unambiguous

/-- **Envelopes**: an event is what its envelope is read as, just if the envelope tells everything about it. -/
theorem ofJson_members_eq_ok_iff (hd : Distinct e.members) : ofJson (.object e.members) = .ok e ↔ e.Unambiguous := by
  rw [ofJson_eq_ok_iff hd]
  exact ⟨ReadFrom.unambiguous, Unambiguous.readFrom⟩

/-! ## Bytes that are read -/

/-- Bytes are read as an event just if they are the text of an object that it is read from. -/
theorem deserialize_eq_ok_iff :
    deserialize bytes = .ok e ↔ ∃ ms, Json.read (Text.symbols bytes) = .ok (.object ms) ∧ e.ReadFrom ms := by
  rw [deserialize, ofSymbols]
  cases hr : Json.read (Text.symbols bytes) with
  | error problem => simp
  | ok v =>
    cases v with
    | object ms =>
      have hd : Distinct ms := (Json.of_readWithin hr).1.1
      simp [ofJson_eq_ok_iff hd]
    | _ => simp [ofJson]

/-- The JSON payload of an event that was read is a value that was read one level down. -/
theorem of_deserialize (h : deserialize bytes = .ok e) :
    e.Unambiguous ∧ e.PayloadWithin 126 ∧ ∀ v, e.payload = some (.json v) → v.WellFormed := by
  obtain ⟨ms, hread, hr⟩ := deserialize_eq_ok_iff.1 h
  obtain ⟨⟨-, hw⟩, hdepth⟩ := Json.of_readWithin hread
  have hmem {v : Json} (hv : e.payload = some (.json v)) : ("data", v) ∈ ms := by
    have hp := hr.payload
    rw [hv] at hp
    exact Fields.mem_of_get? hp.2.1
  refine ⟨hr.unambiguous, fun v hv => ?_, fun v hv => ?_⟩
  · have hms : Json.depthOfMembers ms ≤ 126 := Nat.le_of_succ_le_succ hdepth
    exact Json.depthOfMembers_le_iff.1 hms _ (hmem hv)
  · exact Json.wellFormedMembers_iff.1 hw _ (hmem hv)

/-- **Stability**: whatever bytes an event was read from, it is written without an error, and what is written is read
as the same event again. -/
theorem deserialize_stable (h : Format.json.deserialize bytes = .ok e) (hd : e.DoublesReadBack) :
    ∃ text, Format.json.serialize e = .ok text ∧ Format.json.deserialize text = .ok e := by
  obtain ⟨hu, hdepth, hw⟩ := of_deserialize h
  have hl : e.LegiblePayload := fun v hv => ⟨hw v hv, hd v hv⟩
  refine ⟨e.serialize.toUTF8, rfl, ?_⟩
  show deserialize e.serialize.toUTF8 = .ok e
  rw [serialize, toJson_of_distinct hu.distinct, deserialize_members_iff hu.distinct hl]
  exact ⟨hdepth, (ofJson_members_eq_ok_iff hu.distinct).2 hu⟩

/-- A text that no event is written as: it names no version, repeats the id, has null for the subject and a time in a
leap second with more digits than nanoseconds, and beside bytes there is an extension `data`. -/
def oddText : String :=
  "\x7b\"id\":\"7\",\"id\":\"8\",\"source\":\"/\",\"type\":\"x\",\"subject\":null,\"data\":true,\"data_base64\":\"aGk=\"," ++
    "\"time\":\"2016-12-31t23:59:60.12345678912-02:30\",\"dataschema\":\"a\",\"Tenant\":9\x7d"

/-- The members in the order of the text. -/
def repeatedMembers : List (String × Json) :=
  [("id", .string "7"), ("id", .string "8"), ("source", .string "/"), ("type", .string "x"), ("subject", .null),
    ("data", .bool true), ("data_base64", .string "aGk="), ("time", .string "2016-12-31t23:59:60.12345678912-02:30"),
    ("dataschema", .string "a"), ("Tenant", .integer (.ofInt64 9))]

/-- The members that the text is read as. -/
def oddMembers : List (String × Json) :=
  [("id", .string "8"), ("source", .string "/"), ("type", .string "x"), ("subject", .null), ("data", .bool true),
    ("data_base64", .string "aGk="), ("time", .string "2016-12-31t23:59:60.12345678912-02:30"),
    ("dataschema", .string "a"), ("Tenant", .integer (.ofInt64 9))]

/-- The event that the text is read as. -/
def oddEvent : Event where
  id := "8"
  source := "/"
  type := "x"
  time := some ⟨1483237799, 1123456789, -9000, by decide, by decide, by decide⟩
  subject := none
  contentType := none
  payload := some (.binary [104, 105])
  extensions := .ofList [("data", .boolean true), ("dataschema", .string "a"), ("Tenant", .integer 9)]

theorem readFrom_oddMembers : oddEvent.ReadFrom oddMembers where
  specVersion _ hv := by cases hv
  id := rfl
  source := rfl
  type := rfl
  time := ⟨_, rfl, by decide +kernel⟩
  subject := .inr rfl
  contentType := .inl rfl
  payload := ⟨_, rfl, by decide +kernel⟩
  extension name := by
    have hd : Distinct oddMembers := List.nodup_iff_pairwise_ne.2 (by decide)
    have hx := (ofList_extensionsOfMembers_iff (distinct_without (takenNames oddEvent.payload) hd)).1 ⟨_, rfl, rfl⟩
    rw [← get?_without _ hd]
    exact hx name

theorem deserialize_oddText : deserialize oddText.toUTF8 = .ok oddEvent := by
  have htext : oddText = (Json.object repeatedMembers).text := by decide +kernel
  have hw : Json.WellFormedMembers repeatedMembers := by simp [repeatedMembers, Json.WellFormedMembers, Json.WellFormed]
  refine deserialize_eq_ok_iff.2 ⟨oddMembers, ?_, readFrom_oddMembers⟩
  rw [htext, Json.read_text_object hw (by decide)]
  rfl

theorem deserialize_stable_oddText :
    (Format.json.deserialize oddText.toUTF8 = .ok oddEvent ∧ oddEvent.DoublesReadBack) ∧
      ∃ text, Format.json.serialize oddEvent = .ok text ∧ Format.json.deserialize text = .ok oddEvent := by
  have hd : oddEvent.DoublesReadBack := by
    intro v hv
    cases hv
  exact ⟨⟨deserialize_oddText, hd⟩, deserialize_stable deserialize_oddText hd⟩

end Chronicle.Event
