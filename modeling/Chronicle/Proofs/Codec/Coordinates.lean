import Chronicle.Proofs.Bson.Forms
import Chronicle.Proofs.Codec.Decoding
import Chronicle.Proofs.Codec.Times
import Chronicle.Proofs.Json.Rereading
import Chronicle.Proofs.Store.Coherence

/-!
# Content cannot change a document's place

Event content and the fields of the stream share the top level of a document, and a format may write any text at all.
The stream's fields and a native date are put in last, over whatever the text holds, and each name stands once
(`distinct_of_documentOfText`). So a document says where its event belongs and when it happened, and every codec decodes
it at that place (`Codec.encode_coordinates`).
-/

namespace Chronicle

/-- An object that is stored as a document has its fields: no form of extended JSON is a document. -/
theorem Bson.eq_of_ofDocument {fields fields' : Document} (h : ofDocument fields = .document fields') :
    fields = fields' := by
  unfold ofDocument at h
  split at h
  · rename_i key content
    cases hform : ofForm? key content with
    | none =>
      rw [hform] at h
      cases h
      rfl
    | some b =>
      rw [hform] at h
      cases h
      exact absurd (atomic_ofForm? hform) id
  · cases h
  · cases h
  · cases h
    rfl

namespace Codec

variable {c : Codec} {e : Event} {stream : String} {v : Nat} {d : Document}

/-- Each name stands once in a document that is read from a text, whatever the text repeats. -/
theorem distinct_of_documentOfText {bytes : ByteArray} (h : documentOfText bytes = .ok d) : Fields.Distinct d := by
  unfold documentOfText at h
  split at h
  · cases h
  rename_i u hread
  split at h
  · cases h
  · rename_i fields hof
    cases h
    cases u with
    | object members =>
      obtain ⟨fields, hm, hd⟩ := Except.bind_eq_ok_iff.1 hof
      cases Bson.eq_of_ofDocument (Except.ok.inj hd)
      have hw := (Json.of_readWithin hread).1.1
      rwa [Fields.Distinct, Bson.names_ofJsonMembers hm]
    | array items =>
      obtain ⟨bs, -, h⟩ := Except.bind_eq_ok_iff.1 hof
      cases h
    | integer n =>
      rw [Bson.ofJson] at hof
      split at hof <;> cases hof
    | _ => cases hof
  · cases h

theorem distinct_versioned {fields : Document} (hd : Fields.Distinct fields) {version : Option Nat}
    (h : versioned fields version = .ok d) : Fields.Distinct d := by
  unfold Codec.versioned at h
  split at h
  · cases h
    exact hd
  · split at h
    · cases h
      exact hd.set _ _
    · cases h

theorem distinct_of_encode {version : Option Nat} (h : c.encode e stream version = .ok d) : Fields.Distinct d := by
  obtain ⟨-, date, bytes, fields, d', -, -, hdoc, hv, rfl⟩ := encode_eq_ok_iff.1 h
  have hd' : Fields.Distinct d' := distinct_versioned ((distinct_of_documentOfText hdoc).set _ _) hv
  cases date with
  | none => exact hd'
  | some millis => exact hd'.set _ _

/-- Under native dates the field of the time is the date of the event's own time. -/
theorem date_of_encode {version : Option Nat} (h : c.encode e stream version = .ok d) (hc : c.times = .nativeDate)
    {t : Timestamp} (ht : e.time = some t) :
    TimeRepresentation.nativeDate.Passes t ∧ Fields.get? timeField d = some (.date (Int64.ofInt t.millis)) := by
  obtain ⟨-, date, bytes, fields, d', hdate, -, -, -, rfl⟩ := encode_eq_ok_iff.1 h
  have hdateOf : c.dateOf e = (nativeDate t).map some := by rw [dateOf, hc, ht]
  obtain ⟨millis, hmillis, rfl⟩ := Except.map_eq_ok_iff.1 (hdateOf.symm.trans hdate)
  obtain ⟨hp, rfl⟩ := TimeRepresentation.nativeDate_eq_ok_iff.1 hmillis
  exact ⟨hp, by rw [dated, Fields.get?_set, if_pos rfl]⟩

/-- An event is decoded at the place that its document is labelled with, whatever else is in it. -/
theorem Labelled.decode (hl : Labelled stream v d) {r : StreamEvent} (h : c.decode d = .ok r) :
    r.stream = stream ∧ r.version = v := by
  obtain ⟨hs, hv, -⟩ := decode_eq_ok_iff.1 h
  rw [streamOf, hl.streamId] at hs
  rw [versionOf, hl.streamVersion] at hv
  exact ⟨(Except.ok.inj hs).symm, Except.ok.inj (hv.symm.trans (versionOfBson_ofNat hl.version_le))⟩

theorem Labelled.streamVersionOf (hl : Labelled stream v d) : streamVersionOf d = .ok (some v) := by
  rw [Chronicle.streamVersionOf, hl.streamVersion]
  dsimp only
  rw [versionOfBson_ofNat hl.version_le]
  rfl

/-- **Coordinates**: whatever an event holds and whatever the format makes of it, its document has each name once and
the stream's id and version that it was encoded with. Under native dates its time is the event's own, which is one in
UTC and of whole milliseconds. Every codec that decodes the document finds the event at that place. -/
theorem encode_coordinates (h : c.encode e stream (some v) = .ok d) :
    Fields.Distinct d ∧ Fields.get? streamIdField d = some (.string stream) ∧
      (v ≤ 0x7FFFFFFFFFFFFFFF ∧ Fields.get? streamVersionField d = some (.int64 (Int64.ofNat v))) ∧
      Chronicle.streamVersionOf d = .ok (some v) ∧
      (∀ t, c.times = .nativeDate → e.time = some t →
        t.offset = 0 ∧ t.nanos % 1000000 = 0 ∧ Fields.get? timeField d = some (.date (Int64.ofInt t.millis))) ∧
      ∀ (c' : Codec) (r : StreamEvent), c'.decode d = .ok r → r.stream = stream ∧ r.version = v := by
  have hl := labelled_of_encode h
  refine ⟨distinct_of_encode h, hl.streamId, ⟨hl.version_le, hl.streamVersion⟩, hl.streamVersionOf, ?_, ?_⟩
  · intro t hc ht
    obtain ⟨⟨ho, hn⟩, hdate⟩ := date_of_encode h hc ht
    exact ⟨ho, hn, hdate⟩
  · intro c' r hr
    exact hl.decode hr

/-- A text that claims another place and another time, and repeats a name. -/
def forgedText : String :=
  "\x7b\"streamId\":\"other\",\"time\":\"never\",\"streamVersion\":99,\"_id\":true,\"id\":\"1\",\"source\":\"/\"," ++
    "\"type\":\"x\",\"streamId\":null\x7d"

/-- A format that writes this text for every event. -/
def forging : Format := ⟨fun _ => .ok forgedText.toUTF8, Event.deserialize⟩

/-- An event with extensions of the names of a place and of a time. -/
def forger : Event where
  id := "7"
  source := "/meters/4"
  type := "meter.read"
  time := some (.toUtc ⟨1700000000, 750000000, 5400, by decide, by decide, by decide⟩)
  subject := none
  contentType := none
  payload := none
  extensions := .ofList [("streamId", .string "other"), ("streamVersion", .integer 99), ("time", .boolean false)]

/-- What is stored of the event. -/
def forgedDocument : Document :=
  [("streamId", .string "meter-4"), ("time", .date 1700000000750), ("streamVersion", .int64 12), ("_id", .boolean true),
    ("id", .string "1"), ("source", .string "/"), ("type", .string "x")]

/-- The members in the order of the text. -/
def claimedMembers : List (String × Json) :=
  [("streamId", .string "other"), ("time", .string "never"), ("streamVersion", .integer (.ofInt64 99)),
    ("_id", .bool true), ("id", .string "1"), ("source", .string "/"), ("type", .string "x"), ("streamId", .null)]

/-- The members that the text is read as: the repeated name keeps its first place. -/
def forgedMembers : List (String × Json) :=
  [("streamId", .null), ("time", .string "never"), ("streamVersion", .integer (.ofInt64 99)), ("_id", .bool true),
    ("id", .string "1"), ("source", .string "/"), ("type", .string "x")]

theorem read_forgedText : Json.read (Text.symbols forgedText.toUTF8) = .ok (.object forgedMembers) := by
  have htext : forgedText = (Json.object claimedMembers).text := by decide +kernel
  have hw : Json.WellFormedMembers claimedMembers := by simp [claimedMembers, Json.WellFormedMembers, Json.WellFormed]
  rw [htext, Json.read_text_object hw (by decide)]
  rfl

theorem encode_forger : Codec.encode ⟨forging, .nativeDate⟩ forger "meter-4" (some 12) = .ok forgedDocument := by
  have hdoc : documentOfText forgedText.toUTF8 = .ok
      [("streamId", .null), ("time", .string "never"), ("streamVersion", .int64 99), ("_id", .boolean true),
        ("id", .string "1"), ("source", .string "/"), ("type", .string "x")] := by
    rw [documentOfText, read_forgedText]
    rfl
  exact encode_eq_ok_iff.2 ⟨rfl, some 1700000000750, _, _, _, rfl, rfl, hdoc,
    versioned_some_eq_ok_iff.2 ⟨by decide, rfl⟩, rfl⟩

theorem encode_coordinates_forger :
    Codec.encode ⟨forging, .nativeDate⟩ forger "meter-4" (some 12) = .ok forgedDocument ∧
      Fields.Distinct forgedDocument ∧ Fields.get? streamIdField forgedDocument = some (.string "meter-4") ∧
      (12 ≤ 0x7FFFFFFFFFFFFFFF ∧ Fields.get? streamVersionField forgedDocument = some (.int64 (Int64.ofNat 12))) ∧
      Chronicle.streamVersionOf forgedDocument = .ok (some 12) ∧
      (∀ t, (⟨forging, .nativeDate⟩ : Codec).times = .nativeDate → forger.time = some t →
        t.offset = 0 ∧ t.nanos % 1000000 = 0 ∧
          Fields.get? timeField forgedDocument = some (.date (Int64.ofInt t.millis))) ∧
      ∀ (c' : Codec) (r : StreamEvent), c'.decode forgedDocument = .ok r → r.stream = "meter-4" ∧ r.version = 12 :=
  ⟨encode_forger, encode_coordinates encode_forger⟩

end Codec

end Chronicle
