import Chronicle.Proofs.Codec.Payloads
import Chronicle.Proofs.Event.Reading
import Chronicle.Proofs.Time.Reading

/-!
# Events come back from their envelopes

An event that the rules admit is read back from the text of its envelope just if its payload does not nest too deep and
the text of its time is read back (`Event.deserialize_serialize_iff`). Nothing else matters: neither what the strings
are, nor the order and the names of JSON members, nor whether integers are signed.
-/

namespace Chronicle.Event

variable {e : Event}

/-- The envelope of an event is read as the event just if its time is writable. -/
theorem Admitted.ofJson_members_iff (h : e.Admitted) :
    ofJson (.object e.members) = .ok e ↔ ∀ t, e.time = some t → t.Writable := by
  constructor
  · intro he t ht
    obtain ⟨htime, -⟩ := ofJson_inv h.apart.distinct he
    obtain ⟨text, -, htext⟩ := htime t ht
    exact Timestamp.writable_of_ofRfc3339 htext
  · intro ht
    exact h.ofJson_members (h.apart.holds_of_writable ht)

/-- **Round trip**: an event whose extension names and payload the rules admit comes back as it was from the text that
is written for it, just if its JSON payload nests at most 126 levels deep and its time has an offset of whole minutes,
a year of four digits, and a leap second only at the end of a minute. -/
theorem deserialize_serialize_iff (h : e.Admitted) (hw : ∀ v, e.payload = some (.json v) → v.WellFormed)
    (hd : e.DoublesReadBack) :
    deserialize e.serialize.toUTF8 = .ok e ↔ e.PayloadWithin 126 ∧ ∀ t, e.time = some t → t.Writable := by
  have hl : e.LegiblePayload := fun v hv => ⟨hw v hv, hd v hv⟩
  rw [serialize, toJson_eq h.apart, h.deserialize_members_iff hl, h.ofJson_members_iff]

/-- An event that no draft makes, because its id is empty. Its time is in a leap second and west of UTC, and its payload
has a name that begins with a dollar sign and the greatest unsigned integer. -/
def surplus : Event where
  id := ""
  source := "/meters/4"
  type := "meter.surplus"
  time := some ⟨1483228799, 1500000001, -12600, by decide, by decide, by decide⟩
  subject := some ""
  contentType := some "application/vnd.meter+json; charset=utf-8"
  payload := some (.json (.object
    [("$numberLong", .integer ⟨0xFFFFFFFFFFFFFFFF, by decide, by decide⟩), ("by", .array [.null, .string "x"])]))
  extensions := .ofList [("tenant", .string "x"), ("shard", .integer 9), ("final", .boolean true)]

theorem admitted_surplus : surplus.Admitted where
  names := by decide
  payload := checkPayload_json_iff.2 ⟨by simp, by decide +kernel⟩

theorem deserialize_serialize_surplus :
    (surplus.Admitted ∧ (∀ v, surplus.payload = some (.json v) → v.WellFormed) ∧ surplus.DoublesReadBack) ∧
      deserialize surplus.serialize.toUTF8 = .ok surplus := by
  have hw : ∀ v, surplus.payload = some (.json v) → v.WellFormed := by
    intro v hv
    cases hv
    simp [Json.WellFormed, Json.WellFormedMembers, Json.WellFormedItems, Fields.Distinct, Fields.names]
  have hd : surplus.DoublesReadBack := by
    intro v hv x hx
    cases hv
    simp [Json.parts, Json.partsOfMembers, Json.partsOfItems] at hx
  refine ⟨⟨admitted_surplus, hw, hd⟩, (deserialize_serialize_iff admitted_surplus hw hd).2 ⟨?_, ?_⟩⟩
  · intro v hv
    cases hv
    decide
  · intro t ht
    cases ht
    exact ⟨by decide, by decide, by decide, by decide⟩

end Chronicle.Event
