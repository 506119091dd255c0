import Chronicle.Codec.Basic
import Chronicle.Proofs.Event.Envelope
import Chronicle.Proofs.Bson.ExtendedJson
import Chronicle.Proofs.Json.Levels
import Chronicle.Proofs.Time.Rfc3339

/-!
# Events that can be stored

Storable are the events that the rules admit and whose time and JSON payload fit the stored form (`Event.Storable`);
that doubles are read back as they were printed is assumed of the doubles that occur (`Event.DoublesReadBack`). The
envelope of a storable event is JSON that text and documents keep (`Event.Admitted.kept_members`), holds the event
(`Event.Storable.holds`), and is read as it (`Event.Admitted.deserialize_of_holds`); a date stands for the time it was
made of (`TimeRepresentation.textOfNativeDate_ok`).
-/

namespace Chronicle

/-! ## What is kept -/

/-- JSON that fits a document: an envelope around it may still nest as deep as texts may, and all of it is plain. -/
structure Json.Storable (v : Json) : Prop where
  wellFormed : v.WellFormed
  depth_le : v.depth ≤ 126
  plain : v.Plain

/-- A time that this representation does not change. A date is of the years 0 to 9999, in UTC, and of whole
milliseconds. -/
def TimeRepresentation.Keeps : TimeRepresentation → Timestamp → Prop
  | .rfc3339String, t => t.Writable
  | .nativeDate, t =>
    t.offset = 0 ∧ t.nanos % 1000000 = 0 ∧ t.nanos < 1000000000 ∧ 0 ≤ t.date.year ∧ t.date.year ≤ 9999

/-- An event that a codec keeps. -/
structure Event.Storable (times : TimeRepresentation) (e : Event) : Prop where
  names : ∀ x ∈ e.extensions.entries, checkExtensionName x.1 = .ok ()
  payload : checkPayload e.contentType e.payload = .ok ()
  json : ∀ v, e.payload = some (.json v) → v.Storable
  time : ∀ t, e.time = some t → times.Keeps t

/-- Each double of the payload is read back from its text. -/
def Event.DoublesReadBack (e : Event) : Prop :=
  ∀ v, e.payload = some (.json v) → ∀ x, .double x ∈ v.parts → x.ReadsBack

/-- JSON that text and documents keep, up to a number of levels. -/
structure Json.Kept (levels : Nat) (v : Json) : Prop where
  wellFormed : v.WellFormed
  depth_le : v.depth ≤ levels
  plain : v.Plain
  doubles : ∀ x, .double x ∈ v.parts → x.ReadsBack

namespace Json

variable {levels : Nat}

/-- A scalar is kept, unless it is a double or an unsigned integer. -/
theorem Kept.scalar {v : Json} (hp : v.parts = [v]) (hw : v.WellFormed) (hl : v.depth = 0)
    (hi : ∀ n, v = .integer n → n.val < 0x8000000000000000) (ho : ∀ ms, v ≠ .object ms) (hd : ∀ x, v ≠ .double x) :
    Kept levels v := by
  have hm : ∀ {u}, u ∈ v.parts → v = u := fun hu => (List.mem_singleton.1 (hp ▸ hu)).symm
  exact ⟨hw, hl ▸ Nat.zero_le _, ⟨fun n hn => hi n (hm hn), fun ms hms => absurd (hm hms) (ho ms)⟩,
    fun x hx => absurd (hm hx) (hd x)⟩

theorem Kept.string (s : String) : Kept levels (.string s) :=
  .scalar rfl trivial rfl (fun _ h => by cases h) (fun _ h => by cases h) (fun _ h => by cases h)

theorem Kept.extension (x : Extension) : Kept levels (Event.extensionToJson x) := by
  cases x with
  | string s => exact .string s
  | boolean b => exact .scalar rfl trivial rfl (fun _ h => by cases h) (fun _ h => by cases h) (fun _ h => by cases h)
  | integer n =>
    refine .scalar rfl trivial rfl (fun m h => ?_) (fun _ h => by cases h) (fun _ h => by cases h)
    cases h
    exact n.toInt_lt

theorem Kept.object {ms : List (String × Json)} (hd : Fields.Distinct ms) (hk : ∀ m ∈ ms, PlainKey m.1)
    (h : ∀ m ∈ ms, Kept levels m.2) : Kept (levels + 1) (.object ms) where
  wellFormed := ⟨hd, wellFormedMembers_iff.2 fun m hm => (h m hm).wellFormed⟩
  depth_le := Nat.succ_le_succ (depthOfMembers_le_iff.2 fun m hm => (h m hm).depth_le)
  plain := by
    refine ⟨fun n hn => ?_, fun ms' hms => ?_⟩
    · rcases of_mem_parts_object hn with hn | ⟨m, hm, hn⟩
      · cases hn
      · exact (h m hm).plain.integers n hn
    · rcases of_mem_parts_object hms with hms | ⟨m, hm, hms⟩
      · cases hms
        exact hk
      · exact (h m hm).plain.keys ms' hms
  doubles x hx := by
    rcases of_mem_parts_object hx with hx | ⟨m, hm, hx⟩
    · cases hx
    · exact (h m hm).doubles x hx

theorem Kept.legible {v : Json} (h : Kept levels v) : v.Legible := ⟨h.wellFormed, h.doubles⟩

/-- The text of a legible value is read as the value, if it does not nest too deep. -/
theorem Legible.read_eq_ok_iff {v u : Json} (h : v.Legible) :
    read (Text.symbols v.text.toUTF8) = .ok u ↔ u = v ∧ v.depth ≤ standardLevels := by
  rw [text, Text.symbols_toUTF8]
  exact h.readWithin_write_eq_ok_iff

theorem Kept.read {v : Json} (h : Kept standardLevels v) : read (Text.symbols v.text.toUTF8) = .ok v :=
  h.legible.read_eq_ok_iff.2 ⟨rfl, h.depth_le⟩

theorem Legible.object {ms : List (String × Json)} (hd : Fields.Distinct ms) (h : ∀ m ∈ ms, m.2.Legible) :
    Legible (.object ms) where
  wellFormed := ⟨hd, wellFormedMembers_iff.2 fun m hm => (h m hm).wellFormed⟩
  doubles x hx := by
    rcases of_mem_parts_object hx with hx | ⟨m, hm, hx⟩
    · cases hx
    · exact (h m hm).doubles x hx

end Json

namespace Event

variable {times : TimeRepresentation} {e : Event}

theorem Storable.admitted (h : e.Storable times) : e.Admitted := ⟨h.names, h.payload⟩

/-- A JSON payload that text and documents keep. -/
theorem Storable.kept (h : e.Storable times) (hd : e.DoublesReadBack) {v : Json} (hv : e.payload = some (.json v)) :
    Json.Kept 126 v := by
  obtain ⟨hw, hl, hp⟩ := h.json v hv
  exact ⟨hw, hl, hp, hd v hv⟩

theorem Admitted.apart (h : e.Admitted) : e.Apart := by
  intro x hx hm
  have hr := (checkExtensionName_iff.1 (h.names x hx)).2.2
  have hs : ∀ name ∈ attributeNames, name ∈ reservedNames := by decide
  exact hr (hs _ hm)

theorem plainKey_of_checkExtensionName {name : String} (h : checkExtensionName name = .ok ()) : Json.PlainKey name := by
  obtain ⟨-, hc, -⟩ := checkExtensionName_iff.1 h
  intro hd
  have hm := hc '$' (List.mem_of_mem_head? hd)
  cases hm

theorem Admitted.plainKey (h : e.Admitted) {m : String × Json} (hm : m ∈ e.members) : Json.PlainKey m.1 := by
  rcases List.mem_append.1 hm with hm | hm
  · have hk : ∀ name ∈ attributeNames, Json.PlainKey name := by decide
    exact hk _ ((names_attributes e).subset (List.mem_map_of_mem hm))
  · obtain ⟨x, hx, rfl⟩ := List.mem_map.1 hm
    exact plainKey_of_checkExtensionName (h.names x hx)

theorem kept_member (hj : ∀ v, e.payload = some (.json v) → Json.Kept 126 v) {m : String × Json} (hm : m ∈ e.members) :
    Json.Kept 126 m.2 := by
  rcases mem_members hm with ⟨s, hs⟩ | ⟨x, hx⟩ | hp
  · exact hs ▸ .string s
  · exact hx ▸ .extension x
  · exact hj m.2 hp

/-- The envelope is kept, also with another text for the time. -/
theorem Admitted.kept_members (h : e.Admitted) (hj : ∀ v, e.payload = some (.json v) → Json.Kept 126 v) :
    Json.Kept 127 (.object e.members) :=
  .object h.apart.distinct (fun _ hm => h.plainKey hm) (fun _ hm => kept_member hj hm)

theorem Admitted.kept_setTime (h : e.Admitted) (hj : ∀ v, e.payload = some (.json v) → Json.Kept 126 v)
    (text : String) : Json.Kept 127 (.object (Fields.set "time" (.string text) e.members)) := by
  have hm : ∀ m ∈ Fields.set "time" (Json.string text) e.members, Json.PlainKey m.1 ∧ Json.Kept 126 m.2 := by
    intro m hm
    rcases Fields.mem_set hm with rfl | hm
    · exact ⟨show Json.PlainKey "time" by decide, .string text⟩
    · exact ⟨h.plainKey hm, kept_member hj hm⟩
  exact .object (h.apart.distinct.set _ _) (fun m h => (hm m h).1) (fun m h => (hm m h).2)

/-- Names that are not lower-case alphanumeric are free in the envelope, but for those of attributes. -/
theorem Admitted.not_mem_names_members (h : e.Admitted) {name : String} (ha : name ∉ attributeNames)
    (hn : name.toList.all isNameChar = false) : name ∉ Fields.names e.members := by
  rintro hm
  obtain ⟨m, hmem, rfl⟩ := List.mem_map.1 hm
  rcases List.mem_append.1 hmem with hm | hm
  · exact ha ((names_attributes e).subset (List.mem_map_of_mem hm))
  · obtain ⟨x, hx, rfl⟩ := List.mem_map.1 hm
    obtain ⟨-, hc, -⟩ := checkExtensionName_iff.1 (h.names x hx)
    rw [List.all_eq_true.2 hc] at hn
    cases hn

theorem deserialize_of_read {v : Json} (h : Json.read (Text.symbols v.text.toUTF8) = .ok v) :
    deserialize v.text.toUTF8 = ofJson v := by
  rw [deserialize, ofSymbols, h]

/-- An object that holds an event is read as the event, if its text is read as the object. -/
theorem Admitted.deserialize_of_holds {ms : List (String × Json)} (h : e.Admitted)
    (hr : Json.read (Text.symbols (Json.object ms).text.toUTF8) = .ok (.object ms)) (hm : e.Holds ms) :
    deserialize (Json.object ms).text.toUTF8 = .ok e := by
  rw [deserialize_of_read hr]
  exact ofJson_of_holds hm h.payload fun _ hn => h.apart.get? hn

end Event

/-! ## Native dates -/

namespace TimeRepresentation

variable {t : Timestamp}

theorem millis_range (h : nativeDate.Keeps t) : firstMilli ≤ t.millis ∧ t.millis ≤ lastMilli := by
  obtain ⟨ho, -, hn, h0, h9⟩ := h
  have hd : t.date.toDays = t.localSecs / 86400 := Date.toDays_ofDays _
  have hr := Date.toDays_range t.date_isValid h0 h9
  rw [hd] at hr
  unfold Timestamp.localSecs at hr
  unfold Timestamp.millis firstMilli lastMilli
  omega

theorem Keeps.writable {times : TimeRepresentation} (h : times.Keeps t) : t.Writable := by
  cases times with
  | rfc3339String => exact h
  | nativeDate =>
    obtain ⟨ho, -, hn, h0, h9⟩ := h
    exact ⟨by rw [ho]; rfl, h0, h9, fun hl => absurd hn (Nat.not_lt.2 hl)⟩

theorem toInt_millis (h : nativeDate.Keeps t) : (Int64.ofInt t.millis).toInt = t.millis := by
  obtain ⟨hf, hl⟩ := millis_range h
  unfold firstMilli at hf
  unfold lastMilli at hl
  exact Int64.toInt_ofInt_of_le (by omega) (by omega)

theorem nativeDate_ok (h : nativeDate.Keeps t) : Chronicle.nativeDate t = .ok (Int64.ofInt t.millis) := by
  obtain ⟨ho, hm, -⟩ := h
  rw [Chronicle.nativeDate, if_neg (by simpa using hm), if_neg (by simpa using ho)]

/-- A native date has the text of the time, in milliseconds. -/
theorem textOfNativeDate_ok (h : nativeDate.Keeps t) :
    textOfNativeDate (Int64.ofInt t.millis) = .ok (t.rfc3339 .millis) := by
  have hr := millis_range h
  have hi := toInt_millis h
  obtain ⟨ho, hm, hn, -⟩ := h
  have hs : t.millis / 1000 = t.secs := by
    unfold Timestamp.millis
    omega
  have hf : (t.millis % 1000).toNat * 1000000 = t.nanos := by
    unfold Timestamp.millis
    omega
  have hp : Timestamp.ofParts? t.secs t.nanos 0 = some t := by
    rw [Timestamp.ofParts?, dif_pos ⟨t.nanos_lt, by decide, by decide⟩]
    cases t
    cases ho
    rfl
  simp only [textOfNativeDate, hi]
  rw [if_pos hr, hs, hf, hp]

theorem ofRfc3339_millis (h : nativeDate.Keeps t) : Timestamp.ofRfc3339 (t.rfc3339 .millis) = .ok t := by
  refine Timestamp.ofRfc3339_rfc3339 (Keeps.writable h) ?_
  obtain ⟨-, hm, hn, -⟩ := h
  have hc : t.clock.nanos = t.nanos % 1000000000 := rfl
  show t.clock.nanos % 1000000 = 0
  omega

end TimeRepresentation

/-- The envelope of an event holds it, if the text of its time is read back. -/
theorem Event.Apart.holds_of_writable {e : Event} (h : e.Apart) (ht : ∀ t, e.time = some t → t.Writable) :
    e.Holds e.members := by
  refine Event.holds_members h ?_
  rw [Event.get?_time_members h]
  cases hte : e.time with
  | none => rfl
  | some t => exact ⟨t.rfc3339 .nanos, rfl, Timestamp.ofRfc3339_rfc3339 (ht t hte) trivial⟩

theorem Event.Storable.holds {times : TimeRepresentation} {e : Event} (h : e.Storable times) : e.Holds e.members :=
  h.admitted.apart.holds_of_writable fun t ht => (h.time t ht).writable

end Chronicle
