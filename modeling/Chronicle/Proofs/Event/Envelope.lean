import Chronicle.Proofs.Event.Reading
import Chronicle.Proofs.Event.Rules
import Chronicle.Proofs.Text.Base64

/-!
# Envelopes are read back

An object that holds the parts of an event under their names, in any order, is read as that event (`ofJson_of_holds`).
The envelope that is written for an event holds it, if the event's extensions have names of their own and its payload
fits its content type (`holds_members`).
-/

namespace Chronicle.Event

open Fields (get? swapErase Distinct)

/-! ## Payloads -/

/-- A payload whose kind can be told from how it is written. -/
def Fits (contentType : Option String) : Option Payload → Prop
  | some (.json v) => v ≠ .null ∧ ∀ s, v = .string s → isJsonContentType contentType = true
  | some (.text _) => isJsonContentType contentType = false
  | _ => True

variable {contentType : Option String} {payload : Option Payload}

theorem fits_of_checkPayload (h : checkPayload contentType payload = .ok ()) : Fits contentType payload := by
  cases payload with
  | none => trivial
  | some p =>
    cases p with
    | json v =>
      obtain ⟨hv, hj⟩ := checkPayload_json_iff.1 h
      exact ⟨hv, fun _ _ => hj⟩
    | text s => exact checkPayload_text_iff.1 h
    | binary bytes => trivial

theorem PayloadAt.fits {bytes data : Option Json} (h : PayloadAt contentType bytes data payload) :
    Fits contentType payload := by
  cases payload with
  | none => trivial
  | some p =>
    cases p with
    | json v => exact h.2.2
    | text s => exact h.2.2
    | binary bytes => trivial

/-- A payload is read from the member that it is written as. -/
theorem Fits.payloadAt (h : Fits contentType payload) :
    PayloadAt contentType (get? "data_base64" (payloadMember payload)) (get? "data" (payloadMember payload))
      payload := by
  cases payload with
  | none => exact ⟨.inl rfl, .inl rfl⟩
  | some p =>
    cases p with
    | json v => exact ⟨.inl rfl, rfl, h⟩
    | text s => exact ⟨.inl rfl, rfl, h⟩
    | binary bytes => exact ⟨_, rfl, Base64.decode_encode bytes⟩

/-! ## Reading an event -/

/-- What the member `time` holds: text that is read as the time. -/
def HoldsTime (time : Option Timestamp) (found : Option Json) : Prop :=
  match time with
  | none => found = none
  | some t => ∃ text, found = some (.string text) ∧ Timestamp.ofRfc3339 text = .ok t

/-- The names that reading takes out, in order. -/
def attributeNames : List String :=
  ["specversion", "id", "source", "type", "time", "subject", "datacontenttype", "data_base64", "data"]

/-- Members that hold the parts of an event under their names, in any order. -/
structure Holds (e : Event) (ms : List (String × Json)) : Prop where
  distinct : Distinct ms
  specVersion : get? "specversion" ms = some (.string specVersion)
  id : get? "id" ms = some (.string e.id)
  source : get? "source" ms = some (.string e.source)
  type : get? "type" ms = some (.string e.type)
  time : HoldsTime e.time (get? "time" ms)
  subject : get? "subject" ms = e.subject.map .string
  contentType : get? "datacontenttype" ms = e.contentType.map .string
  bytes : get? "data_base64" ms = get? "data_base64" (payloadMember e.payload)
  data : get? "data" ms = get? "data" (payloadMember e.payload)
  extension : ∀ name, name ∉ attributeNames → get? name ms = (e.extensions.get? name).map extensionToJson

theorem stringAt_of_eq {found : Option Json} {o : Option String} (h : found = o.map .string) : StringAt found o := by
  cases o with
  | none => exact .inl h
  | some s => exact h

theorem HoldsTime.timeAt {time : Option Timestamp} {found : Option Json} (h : HoldsTime time found) :
    TimeAt found time := by
  cases time with
  | none => exact .inl h
  | some t => exact h

theorem takenNames_sublist (payload : Option Payload) : (takenNames payload).Sublist attributeNames := by
  unfold takenNames payloadNames
  split
  · decide
  · decide

/-- Only beside bytes an attribute's name is left for an extension, and only the name `data`. -/
theorem eq_data_of_not_mem {payload : Option Payload} {name : String} (hn : name ∈ attributeNames)
    (ht : name ∉ takenNames payload) : name = "data" ∧ ∃ bytes, payload = some (.binary bytes) := by
  cases payload with
  | none => exact absurd hn ht
  | some p =>
    cases p with
    | binary bytes =>
      refine ⟨?_, bytes, rfl⟩
      have hs : attributeNames = takenNames (some (.binary bytes)) ++ ["data"] := rfl
      rw [hs, List.mem_append] at hn
      exact List.mem_singleton.1 (hn.resolve_left ht)
    | _ => exact absurd hn ht

/-- **Reading an event**: an object that holds an event is read as it. -/
theorem ofJson_of_holds {e : Event} {ms : List (String × Json)} (h : e.Holds ms)
    (hp : checkPayload e.contentType e.payload = .ok ())
    (hx : ∀ name ∈ attributeNames, e.extensions.get? name = none) : ofJson (.object ms) = .ok e := by
  have hpayload := (fits_of_checkPayload hp).payloadAt
  rw [← h.bytes, ← h.data] at hpayload
  refine (ofJson_eq_ok_iff h.distinct).2 ?_
  constructor
  case specVersion =>
    intro v hv
    rw [h.specVersion] at hv
    cases hv
    rfl
  case id => exact h.id
  case source => exact h.source
  case type => exact h.type
  case time => exact h.time.timeAt
  case subject => exact stringAt_of_eq h.subject
  case contentType => exact stringAt_of_eq h.contentType
  case payload => exact hpayload
  case extension =>
    intro name
    by_cases ht : name ∈ takenNames e.payload
    · rw [if_pos ht, hx name ((takenNames_sublist _).subset ht)]
      rfl
    rw [if_neg ht]
    by_cases hn : name ∈ attributeNames
    · -- the one attribute that is not taken out is `data` beside bytes, where it is not written either
      obtain ⟨rfl, bytes, hpay⟩ := eq_data_of_not_mem hn ht
      rw [hx _ hn, h.data, hpay]
      rfl
    · exact h.extension name hn

/-! ## Writing an event -/

/-- The members of the envelope of an event whose extensions have names of their own. -/
def members (e : Event) : List (String × Json) := e.attributes ++ extensionMembers e.extensions.entries

theorem names_optionalMember (name : String) (o : Option String) :
    (Fields.names (optionalMember name o)).Sublist [name] := by
  cases o with
  | none => exact List.nil_sublist _
  | some s => exact .refl _

theorem names_payloadMember (p : Option Payload) : (Fields.names (payloadMember p)).Sublist (payloadNames p) := by
  cases p with
  | none => exact List.nil_sublist _
  | some p => cases p <;> simp [payloadMember, payloadNames, Fields.names]

/-- The attributes of an event have the names that are taken out for it. -/
theorem names_attributes_taken (e : Event) : (Fields.names e.attributes).Sublist (takenNames e.payload) := by
  simp only [attributes, Fields.names, List.map_append]
  have h4 := List.Sublist.refl ["specversion", "id", "source", "type"]
  exact (((h4.append (names_optionalMember "time" _)).append (names_optionalMember "subject" _)).append
    (names_optionalMember "datacontenttype" _)).append (names_payloadMember _)

/-- The attributes of an event have the names that reading takes out. -/
theorem names_attributes (e : Event) : (Fields.names e.attributes).Sublist attributeNames :=
  (names_attributes_taken e).trans (takenNames_sublist e.payload)

theorem distinct_attributes (e : Event) : Distinct e.attributes :=
  List.Nodup.sublist (names_attributes e) (by decide)

/-- The names of an envelope are distinct, if no extension has the name of a member that is written for the event. -/
theorem distinct_members {e : Event} (h : ∀ x ∈ e.extensions.entries, x.1 ∉ Fields.names e.attributes) :
    Distinct e.members := by
  have hx : Distinct (extensionMembers e.extensions.entries) := by
    rw [Distinct, extensionMembers, Fields.names_map]
    exact e.extensions.distinct_entries
  rw [Distinct, members, Fields.names, List.map_append, List.nodup_append]
  refine ⟨distinct_attributes e, hx, ?_⟩
  rintro a ha _ hb rfl
  rw [extensionMembers, ← Fields.names, Fields.names_map] at hb
  obtain ⟨x, hx, rfl⟩ := List.mem_map.1 hb
  exact h x hx ha

theorem toJson_of_distinct {e : Event} (h : Distinct e.members) : e.toJson = .object e.members := by
  have hf := Fields.foldl_set_of_distinct h
  rw [extensionMembers, List.foldl_map] at hf
  rw [toJson, hf]
  rfl

/-- No extension has the name of an attribute. -/
def Apart (e : Event) : Prop := ∀ x ∈ e.extensions.entries, x.1 ∉ attributeNames

variable {e : Event}

theorem Apart.get? (h : e.Apart) {name : String} (hn : name ∈ attributeNames) : e.extensions.get? name = none := by
  rw [NameMap.get?_eq, Fields.get?_eq_none_iff]
  intro hm
  obtain ⟨x, hx, rfl⟩ := List.mem_map.1 hm
  exact h x hx hn

theorem Apart.distinct (h : e.Apart) : Distinct e.members :=
  distinct_members fun x hx hm => h x hx ((names_attributes e).subset hm)

theorem toJson_eq (h : e.Apart) : e.toJson = .object e.members := toJson_of_distinct h.distinct

theorem get?_members (e : Event) (name : String) :
    get? name e.members = (get? name e.attributes).or ((e.extensions.get? name).map extensionToJson) := by
  rw [members, Fields.get?_append, extensionMembers, Fields.get?_map, NameMap.get?_eq]

theorem get?_optionalMember (name other : String) (o : Option String) :
    get? other (optionalMember name o) = if name = other then o.map .string else none := by
  cases o with
  | none => simp [optionalMember, get?]
  | some s => rfl

theorem get?_payloadMember {p : Option Payload} {name : String} (h : name ∉ ["data_base64", "data"]) :
    get? name (payloadMember p) = none := by
  refine Fields.get?_eq_none_iff.2 fun hm => h ?_
  have hn := (names_payloadMember p).subset hm
  unfold payloadNames at hn
  split at hn
  · exact List.mem_cons.2 (.inl (List.mem_singleton.1 hn))
  · exact hn

theorem get?_members_of_mem (h : e.Apart) {name : String} (hn : name ∈ attributeNames) :
    get? name e.members = get? name e.attributes := by
  rw [get?_members, h.get? hn]
  exact Option.or_none

theorem get?_time_attributes (e : Event) :
    get? "time" e.attributes = (e.time.map (·.rfc3339 .nanos)).map .string := by
  simp [attributes, Fields.get?_append, get?_optionalMember, get?_payloadMember, get?]

theorem get?_time_members (h : e.Apart) :
    get? "time" e.members = (e.time.map (·.rfc3339 .nanos)).map .string := by
  rw [get?_members_of_mem h (by decide), get?_time_attributes]

/-- The envelope of an event holds it, if its time is read back from its text. -/
theorem holds_members (h : e.Apart) (ht : HoldsTime e.time (get? "time" e.members)) : e.Holds e.members := by
  have hg (name : String) (hn : name ∈ attributeNames) : get? name e.members = get? name e.attributes :=
    get?_members_of_mem h hn
  constructor
  case distinct => exact h.distinct
  case specVersion | id | source | type => exact hg _ (by decide)
  case time => exact ht
  case subject | contentType | bytes | data =>
    rw [hg _ (by decide)]
    simp [attributes, Fields.get?_append, get?_optionalMember, get?_payloadMember, get?]
  case extension =>
    intro name hn
    rw [get?_members, Fields.get?_eq_none_iff.2 fun hm => hn ((names_attributes e).subset hm)]
    rfl

/-- Another text for the time is as good, if it is read as the time. -/
theorem Holds.setTime {ms : List (String × Json)} (h : e.Holds ms) {t : Timestamp} (he : e.time = some t)
    {text : String} (ht : Timestamp.ofRfc3339 text = .ok t) : e.Holds (Fields.set "time" (.string text) ms) := by
  have hg : ∀ {name : String}, "time" ≠ name → get? name (Fields.set "time" (.string text) ms) = get? name ms :=
    fun hn => by rw [Fields.get?_set, if_neg hn]
  constructor
  case distinct => exact h.distinct.set _ _
  case specVersion => exact (hg (by decide)).trans h.specVersion
  case id => exact (hg (by decide)).trans h.id
  case source => exact (hg (by decide)).trans h.source
  case type => exact (hg (by decide)).trans h.type
  case time =>
    rw [he, Fields.get?_set, if_pos rfl]
    exact ⟨text, rfl, ht⟩
  case subject => exact (hg (by decide)).trans h.subject
  case contentType => exact (hg (by decide)).trans h.contentType
  case bytes => exact (hg (by decide)).trans h.bytes
  case data => exact (hg (by decide)).trans h.data
  case extension =>
    intro name hn
    have hne : "time" ≠ name := fun hne => hn (hne ▸ by decide)
    exact (hg hne).trans (h.extension name hn)

theorem mem_optionalMember {name : String} {o : Option String} {m : String × Json} (h : m ∈ optionalMember name o) :
    ∃ s, m.2 = .string s := by
  cases o with
  | none => cases h
  | some s =>
    cases List.mem_singleton.1 h
    exact ⟨s, rfl⟩

theorem mem_payloadMember {p : Option Payload} {m : String × Json} (h : m ∈ payloadMember p) :
    (∃ s, m.2 = .string s) ∨ p = some (.json m.2) := by
  cases p with
  | none => cases h
  | some p =>
    cases p with
    | json v =>
      cases List.mem_singleton.1 h
      exact .inr rfl
    | text s =>
      cases List.mem_singleton.1 h
      exact .inl ⟨s, rfl⟩
    | binary bytes =>
      cases List.mem_singleton.1 h
      exact .inl ⟨_, rfl⟩

/-- An attribute is a string or the payload. -/
theorem mem_attributes {m : String × Json} (h : m ∈ e.attributes) :
    (∃ s, m.2 = .string s) ∨ e.payload = some (.json m.2) := by
  rcases List.mem_append.1 h with h | h
  · rcases List.mem_append.1 h with h | h
    · rcases List.mem_append.1 h with h | h
      · rcases List.mem_append.1 h with h | h
        · simp only [List.mem_cons, List.not_mem_nil, or_false] at h
          rcases h with rfl | rfl | rfl | rfl <;> exact .inl ⟨_, rfl⟩
        · exact .inl (mem_optionalMember h)
      · exact .inl (mem_optionalMember h)
    · exact .inl (mem_optionalMember h)
  · exact mem_payloadMember h

/-- A member is a string, an extension or the payload. -/
theorem mem_members {m : String × Json} (h : m ∈ e.members) :
    (∃ s, m.2 = .string s) ∨ (∃ x, m.2 = extensionToJson x) ∨ e.payload = some (.json m.2) := by
  rcases List.mem_append.1 h with h | h
  · exact (mem_attributes h).imp_right .inr
  · obtain ⟨x, -, rfl⟩ := List.mem_map.1 h
    exact .inr (.inl ⟨x.2, rfl⟩)

end Chronicle.Event
