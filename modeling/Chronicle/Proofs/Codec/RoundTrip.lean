import Chronicle.Proofs.Codec.Decoding
import Chronicle.Proofs.Codec.Encoding
import Chronicle.Proofs.Codec.Storable

/-!
# Events are decoded as they were encoded

The document of a storable event is that of its envelope with the stream's fields behind it (`Codec.Stored`). It is
decoded as the event at its place in its stream, also after the database has put its key into it (`Codec.round_trip`).
-/

namespace Chronicle.Codec

variable {times : TimeRepresentation} {e : Event}

/-- The fields of a document with the stream's fields behind them. -/
def placed (fields : Document) (stream : String) (version : Nat) : Document :=
  fields ++ [(streamIdField, .string stream), (streamVersionField, .int64 (Int64.ofNat version))]

/-- Fields that leave the names of the stream and of the database free. -/
structure Free (fields : Document) : Prop where
  internalId : internalIdField ∉ Fields.names fields
  streamId : streamIdField ∉ Fields.names fields
  streamVersion : streamVersionField ∉ Fields.names fields

theorem Free.internalId_placed {fields : Document} (h : Free fields) (stream : String) (v : Nat) :
    internalIdField ∉ Fields.names (placed fields stream v) := by
  rw [placed, Fields.not_mem_names_append]
  exact ⟨h.internalId, show internalIdField ∉ [streamIdField, streamVersionField] by decide⟩

theorem set_streamFields {fields : Document} (h : Free fields) (stream : String) (n : Bson) :
    Fields.set streamVersionField n (Fields.set streamIdField (.string stream) fields) =
      fields ++ [(streamIdField, .string stream), (streamVersionField, n)] := by
  have hv : streamVersionField ∉ Fields.names (fields ++ [(streamIdField, Bson.string stream)]) := by
    rw [Fields.not_mem_names_append]
    exact ⟨h.streamVersion, show streamVersionField ∉ [streamIdField] by decide⟩
  rw [Fields.set_of_not_mem h.streamId, Fields.set_of_not_mem hv, List.append_assoc]
  rfl

theorem versionOfBson_ofNat {v : Nat} (hv : v ≤ 0x7FFFFFFFFFFFFFFF) :
    versionOfBson (.int64 (Int64.ofNat v)) = .ok v := by
  have hi : (Int64.ofNat v).toInt = v := Int64.toInt_ofNat_of_lt (by omega)
  have hn : ¬Int64.ofNat v < 0 := by
    rw [Int64.lt_iff_toInt_lt, hi]
    exact Int.not_lt.2 (Int.natCast_nonneg v)
  simp only [versionOfBson, Except.ok_bind, if_neg hn, hi]
  rfl

/-- The stream's fields are taken out of a document again, and a key of the database with them. -/
theorem decode_placed (c : Codec) {fields : Document} (h : Free fields) {d : Document} {stream : String} {v : Nat}
    (hd : Fields.erase internalIdField d = placed fields stream v) (hv : v ≤ 0x7FFFFFFFFFFFFFFF) :
    c.decode d = (c.withTextTime fields >>= fun ms =>
      (c.format.deserialize (Bson.toJson (.document ms)).text.toUTF8).mapError .format >>= fun e =>
      .ok ⟨stream, v, e⟩) := by
  have hs : streamOf d = .ok stream := by
    rw [← streamOf_erase (show internalIdField ≠ streamIdField by decide), hd, streamOf, placed, Fields.get?_append,
      Fields.get?_eq_none_iff.2 h.streamId]
    rfl
  have hn : versionOf d = .ok v := by
    rw [← versionOf_erase (show internalIdField ≠ streamVersionField by decide), hd, versionOf, placed,
      Fields.get?_append, Fields.get?_eq_none_iff.2 h.streamVersion]
    exact versionOfBson_ofNat hv
  have hown : ownFields d = fields := by
    rw [ownFields, hd, placed, Fields.erase_middle h.streamId, Fields.erase_middle h.streamVersion, List.append_nil]
  rw [decode_eq, hs, hn, hown]
  rfl

theorem decode_placed_eq_ok_iff (c : Codec) {fields : Document} (h : Free fields) {d : Document} {stream : String}
    {v : Nat} (hd : Fields.erase internalIdField d = placed fields stream v) (hv : v ≤ 0x7FFFFFFFFFFFFFFF)
    {r : StreamEvent} :
    c.decode d = .ok r ↔ ∃ ms, c.withTextTime fields = .ok ms ∧
      ∃ e, c.format.deserialize (Bson.toJson (.document ms)).text.toUTF8 = .ok e ∧ StreamEvent.mk stream v e = r := by
  simp only [decode_placed c h hd hv, Except.bind_eq_ok_iff, Except.mapError_eq_ok_iff, Except.ok.injEq]

/-- What is written for a storable event: its document, and what reading makes of it. -/
structure Stored (times : TimeRepresentation) (e : Event) (fields : Document) : Prop where
  free : Free fields
  encode : ∀ stream v, v ≤ 0x7FFFFFFFFFFFFFFF →
    (json times).encode e stream (some v) = .ok (placed fields stream v)
  read : ∃ ms, (json times).withTextTime fields = .ok ms ∧
    (json times).format.deserialize (Bson.toJson (.document ms)).text.toUTF8 = .ok e

theorem Free.of_names {fields : Document} (h : e.Admitted)
    (hn : ∀ name ∈ Fields.names fields, name ∈ Fields.names e.members ∨ name = timeField) : Free fields := by
  have hf : ∀ {name : String}, name ∉ Event.attributeNames → name.toList.all isNameChar = false → name ≠ timeField →
      name ∉ Fields.names fields := by
    intro name ha hc ht hm
    rcases hn name hm with hm | hm
    · exact h.not_mem_names_members ha hc hm
    · exact ht hm
  exact ⟨hf (by decide) (by decide) (by decide), hf (by decide) (by decide) (by decide),
    hf (by decide) (by decide) (by decide)⟩

/-- The text of a kept envelope becomes a document with its members. -/
theorem documentOfText_serialize (h : e.Admitted) (hk : Json.Kept 127 (.object e.members)) :
    ∃ fields, documentOfText e.serialize.toUTF8 = .ok fields ∧ Bson.toJsonMembers fields = e.members := by
  obtain ⟨fields, hf, hm⟩ := Bson.ofJson_object hk.plain
  refine ⟨fields, ?_, hm⟩
  rw [documentOfText, Event.serialize, Event.toJson_eq h.apart, hk.read]
  simp only [hf]

theorem encode_eq_dated (h : e.Admitted) {fields : Document} (hf : Free fields)
    (hdoc : documentOfText e.serialize.toUTF8 = .ok fields) {date : Option Int64}
    (hdate : (json times).dateOf e = .ok date) (stream : String) {v : Nat} (hv : v ≤ 0x7FFFFFFFFFFFFFFF) :
    (json times).encode e stream (some v) = .ok (dated (placed fields stream v) date) := by
  refine encode_eq_ok_iff.2 ⟨h.payload, date, _, fields, _, hdate, rfl, hdoc, versioned_some_eq_ok_iff.2 ⟨hv, rfl⟩, ?_⟩
  rw [set_streamFields hf, placed]

theorem names_fields {fields : Document} {ms : List (String × Json)} (hm : Bson.toJsonMembers fields = ms) :
    Fields.names fields = Fields.names ms := by
  rw [← hm, Bson.toJsonMembers_eq, Fields.names_map]

theorem dateOf_of_no_time (times : TimeRepresentation) (ht : e.time = none) : (json times).dateOf e = .ok none := by
  rw [dateOf, ht]
  cases times <;> rfl

theorem withTextTime_of_not_mem (c : Codec) {fields : Document} (h : timeField ∉ Fields.names fields) :
    c.withTextTime fields = .ok fields := by
  rw [withTextTime, Fields.get?_eq_none_iff.2 h]
  cases c.times <;> rfl

theorem not_mem_names_of_no_time (ha : e.Admitted) (ht : e.time = none) : timeField ∉ Fields.names e.members := by
  rw [← Fields.get?_eq_none_iff, timeField, Event.get?_time_members ha.apart, ht]
  rfl

/-- A document whose time is not stored as a date. -/
theorem stored_of_text (h : e.Storable times) (hd : e.DoublesReadBack) (ht : times = .rfc3339String ∨ e.time = none) :
    ∃ fields, Stored times e fields := by
  have hk := h.admitted.kept_members fun _ => h.kept hd
  obtain ⟨fields, hdoc, hm⟩ := documentOfText_serialize h.admitted hk
  have hf : Free fields := .of_names h.admitted fun name hn => .inl (names_fields hm ▸ hn)
  have hdate : (json times).dateOf e = .ok none := by
    rcases ht with rfl | ht
    · rfl
    · exact dateOf_of_no_time times ht
  have htext : (json times).withTextTime fields = .ok fields := by
    rcases ht with rfl | ht
    · rfl
    · exact withTextTime_of_not_mem _ (names_fields hm ▸ not_mem_names_of_no_time h.admitted ht)
  refine ⟨fields, hf, fun stream v hv => encode_eq_dated h.admitted hf hdoc hdate stream hv, fields, htext, ?_⟩
  rw [Bson.toJson, hm]
  exact h.admitted.deserialize_of_holds hk.read h.holds

/-- A document whose time is stored as a date. -/
theorem stored_of_date (h : e.Storable .nativeDate) (hd : e.DoublesReadBack) {t : Timestamp} (ht : e.time = some t) :
    ∃ fields, Stored .nativeDate e fields := by
  obtain ⟨fields, hdoc, hm⟩ := documentOfText_serialize h.admitted (h.admitted.kept_members fun _ => h.kept hd)
  have hk := h.time t ht
  have hmem : timeField ∈ Fields.names fields := by
    have hg := Event.get?_time_members h.admitted.apart
    rw [ht] at hg
    exact names_fields hm ▸ Fields.mem_names_of_mem (Fields.mem_of_get? hg)
  have hf : Free fields := .of_names h.admitted fun name hn => .inl (names_fields hm ▸ hn)
  have hf' : Free (Fields.set timeField (.date (Int64.ofInt t.millis)) fields) := by
    refine .of_names h.admitted fun name hn => ?_
    rcases (Fields.mem_names_set _ _ _ _).1 hn with hn | hn
    · exact .inr hn
    · exact .inl (names_fields hm ▸ hn)
  have hdate : (json .nativeDate).dateOf e = .ok (some (Int64.ofInt t.millis)) := by
    rw [dateOf, ht]
    simp only [json, TimeRepresentation.nativeDate_ok hk]
    rfl
  have htext : (json .nativeDate).withTextTime (Fields.set timeField (.date (Int64.ofInt t.millis)) fields) =
      .ok (Fields.set timeField (.string (t.rfc3339 .millis)) fields) := by
    rw [withTextTime, Fields.get?_set, if_pos rfl]
    simp only [json, TimeRepresentation.textOfNativeDate_ok hk, Except.ok_bind, Fields.set_set]
    rfl
  refine ⟨_, hf', fun stream v hv => ?_, _, htext, ?_⟩
  · rw [encode_eq_dated h.admitted hf hdoc hdate stream hv, dated, placed, Fields.set_append hmem, placed]
  · rw [Bson.toJson, Bson.toJsonMembers_eq, Fields.map_set, ← Bson.toJsonMembers_eq, hm]
    exact h.admitted.deserialize_of_holds (h.admitted.kept_setTime (fun _ => h.kept hd) _).read
      (h.holds.setTime ht (TimeRepresentation.ofRfc3339_millis hk))

theorem exists_stored (h : e.Storable times) (hd : e.DoublesReadBack) : ∃ fields, Stored times e fields := by
  cases times with
  | rfc3339String => exact stored_of_text h hd (.inl rfl)
  | nativeDate =>
    cases ht : e.time with
    | none => exact stored_of_text h hd (.inr ht)
    | some t => exact stored_of_date h hd ht

/-- A document is decoded as the event it was made of, whatever key the database has put into it. -/
theorem Stored.decode {fields : Document} (h : Stored times e fields) {stream : String} {v : Nat}
    (hv : v ≤ 0x7FFFFFFFFFFFFFFF) {d : Document} (hd : Fields.erase internalIdField d = placed fields stream v) :
    (json times).decode d = .ok ⟨stream, v, e⟩ := by
  obtain ⟨ms, ht, he⟩ := h.read
  exact (decode_placed_eq_ok_iff _ h.free hd hv).2 ⟨ms, ht, e, he, rfl⟩

/-- What was encoded of a storable event is decoded as it. -/
theorem decode_of_encode (h : e.Storable times) (hd : e.DoublesReadBack) {stream : String} {v : Nat} {d : Document}
    (he : (json times).encode e stream (some v) = .ok d) : (json times).decode d = .ok ⟨stream, v, e⟩ := by
  have hv := version_le_of_encode he
  obtain ⟨fields, hs⟩ := exists_stored h hd
  rw [hs.encode stream v hv] at he
  cases he
  exact hs.decode hv (Fields.erase_of_not_mem (hs.free.internalId_placed stream v))

/-- A storable event can be encoded at every version that can be stored. -/
theorem exists_encode (h : e.Storable times) (hd : e.DoublesReadBack) (stream : String) {v : Nat}
    (hv : v ≤ 0x7FFFFFFFFFFFFFFF) : ∃ d, (json times).encode e stream (some v) = .ok d := by
  obtain ⟨fields, hs⟩ := exists_stored h hd
  exact ⟨_, hs.encode stream v hv⟩

/-- **Round trip**: a storable event is encoded, and its document is decoded as the event at its place, also with a key
of the database put in anywhere. -/
theorem round_trip (h : e.Storable times) (hd : e.DoublesReadBack) (stream : String) {v : Nat}
    (hv : v ≤ 0x7FFFFFFFFFFFFFFF) :
    ∃ d, (json times).encode e stream (some v) = .ok d ∧ (json times).decode d = .ok ⟨stream, v, e⟩ ∧
      ∀ before after key, d = before ++ after →
        (json times).decode (before ++ (internalIdField, key) :: after) = .ok ⟨stream, v, e⟩ := by
  obtain ⟨fields, hs⟩ := exists_stored h hd
  have hfree := hs.free.internalId_placed stream v
  refine ⟨_, hs.encode stream v hv, hs.decode hv (Fields.erase_of_not_mem hfree), ?_⟩
  intro before after key hsplit
  have hb : internalIdField ∉ Fields.names before := by
    rw [hsplit, Fields.not_mem_names_append] at hfree
    exact hfree.1
  exact hs.decode hv (by rw [Fields.erase_middle hb, hsplit])

/-- An event with a time that is not UTC, a number that is no integer, and extensions. -/
def reading : Event where
  id := "7"
  source := "/meters/4"
  type := "meter.read"
  time := some ⟨1700000000, 250000000, 7200, by decide, by decide, by decide⟩
  subject := some "kWh"
  contentType := none
  payload := some (.json (.object
    [("value", .double ⟨1.5, by decide +kernel⟩), ("by", .array [.integer (.ofInt64 3)])]))
  extensions := .ofList [("tenant", .string "x"), ("shard", .integer 9)]

theorem storable_reading : reading.Storable .rfc3339String where
  names := by decide
  payload := rfl
  json v hv := by
    cases hv
    refine ⟨?_, by decide, ⟨fun n hn => ?_, fun ms hms => ?_⟩⟩
    · simp [Json.WellFormed, Json.WellFormedMembers, Json.WellFormedItems, Fields.Distinct, Fields.names]
    · simp only [Json.parts, Json.partsOfMembers, Json.partsOfItems] at hn
      simp at hn
      subst hn
      decide
    · simp only [Json.parts, Json.partsOfMembers, Json.partsOfItems] at hms
      simp at hms
      subst hms
      decide
  time t ht := by
    cases ht
    exact ⟨by decide, by decide, by decide, by decide⟩

theorem doublesReadBack_reading : reading.DoublesReadBack := by
  intro v hv x hx
  cases hv
  simp only [Json.parts, Json.partsOfMembers, Json.partsOfItems] at hx
  simp at hx
  subst hx
  have ht : (Json.Double.text ⟨1.5, by decide +kernel⟩) = ['1', '.', '5'] := by decide +kernel
  have hx : (⟨false, ['1'], ['5'], none⟩ : Json.Numeral).double? = some ⟨1.5, by decide +kernel⟩ := by decide +kernel
  have hn : Json.readNumeral (Text.symbolsOf ['1', '.', '5']) = .ok (⟨false, ['1'], ['5'], none⟩, []) := by rfl
  rw [Json.Double.ReadsBack, ht, Json.readNumber, hn]
  simp [Json.Numeral.value?, Json.Numeral.integer?, hx]

theorem round_trip_reading :
    reading.Storable .rfc3339String ∧ reading.DoublesReadBack ∧
      ∃ d, (json .rfc3339String).encode reading "meter-4" (some 12) = .ok d ∧
        (json .rfc3339String).decode d = .ok ⟨"meter-4", 12, reading⟩ ∧
        ∀ before after key, d = before ++ after →
          (json .rfc3339String).decode (before ++ (internalIdField, key) :: after) = .ok ⟨"meter-4", 12, reading⟩ :=
  ⟨storable_reading, doublesReadBack_reading,
    round_trip storable_reading doublesReadBack_reading "meter-4" (show 12 ≤ 0x7FFFFFFFFFFFFFFF by decide)⟩

end Chronicle.Codec
