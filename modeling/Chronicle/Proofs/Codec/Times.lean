import Chronicle.Proofs.Codec.RoundTrip
import Chronicle.Proofs.Event.Reading
import Chronicle.Proofs.Time.Reading

/-!
# Which times are kept

Encoding refuses a time only if it is to be stored as a date and is not in UTC or not of whole milliseconds
(`TimeRepresentation.Passes`). It comes back as it was just if the representation keeps it
(`TimeRepresentation.Keeps`): other times pass too, and are decoded as another time or not at all. Years beyond 9999
pass under both representations, seconds of an offset in a text, and leap seconds in a date.
-/

namespace Chronicle

namespace TimeRepresentation

variable {t : Timestamp} {millis : Int64} {text : String}

/-- A time that encoding does not refuse. -/
def Passes : TimeRepresentation → Timestamp → Prop
  | .rfc3339String, _ => True
  | .nativeDate, t => t.offset = 0 ∧ t.nanos % 1000000 = 0

theorem nativeDate_eq_ok_iff :
    Chronicle.nativeDate t = .ok millis ↔ nativeDate.Passes t ∧ millis = Int64.ofInt t.millis := by
  unfold Chronicle.nativeDate Passes
  by_cases hn : t.nanos % 1000000 = 0
  · by_cases ho : t.offset = 0
    · simp [hn, ho, eq_comm]
    · simp [hn, ho]
  · simp [hn]

/-- The text of a date is that of a time in UTC of whole milliseconds, and of no leap second. -/
theorem textOfNativeDate_inv (h : textOfNativeDate millis = .ok text) :
    ∃ x : Timestamp, x.offset = 0 ∧ x.nanos % 1000000 = 0 ∧ x.nanos < 1000000000 ∧ text = x.rfc3339 .millis := by
  unfold textOfNativeDate at h
  dsimp only at h
  split at h
  · split at h
    · rename_i x hx
      cases h
      rw [Timestamp.ofParts?] at hx
      split at hx
      · cases hx
        refine ⟨_, rfl, Nat.mul_mod_left _ _, ?_, rfl⟩
        dsimp only
        omega
      · cases hx
    · cases h
  · cases h

/-- What is read from the text of a date is a time that dates keep. -/
theorem keeps_of_textOfNativeDate (h : textOfNativeDate millis = .ok text) (ht : Timestamp.ofRfc3339 text = .ok t) :
    nativeDate.Keeps t := by
  obtain ⟨x, ho, hm, hn, rfl⟩ := textOfNativeDate_inv h
  obtain ⟨h0, h9⟩ := Timestamp.year_of_ofRfc3339 ht
  have hx : nativeDate.Keeps x := ⟨ho, hm, hn, h0, h9⟩
  rw [ofRfc3339_millis hx] at ht
  cases ht
  exact hx

end TimeRepresentation

namespace Codec

variable {times : TimeRepresentation} {e : Event} {t : Timestamp} {fields : Document} {stream : String} {v : Nat}
  {d : Document} {r : StreamEvent}

theorem dateOf_text (e : Event) : (json .rfc3339String).dateOf e = .ok none := rfl

theorem dateOf_date (ht : e.time = some t) :
    (json .nativeDate).dateOf e = (Chronicle.nativeDate t).map some := by
  rw [dateOf, ht]
  rfl

theorem exists_dateOf_iff (ht : e.time = some t) :
    (∃ date, (json times).dateOf e = .ok date) ↔ times.Passes t := by
  cases times with
  | rfc3339String => exact ⟨fun _ => trivial, fun _ => ⟨none, dateOf_text e⟩⟩
  | nativeDate =>
    rw [dateOf_date ht]
    constructor
    · rintro ⟨date, h⟩
      obtain ⟨millis, hm, -⟩ := Except.map_eq_ok_iff.1 h
      exact (TimeRepresentation.nativeDate_eq_ok_iff.1 hm).1
    · intro h
      exact ⟨some _, Except.map_eq_ok_iff.2 ⟨_, TimeRepresentation.nativeDate_eq_ok_iff.2 ⟨h, rfl⟩, rfl⟩⟩

/-- Decoding a document without a date reads the envelope again. -/
theorem decode_text_iff (hk : Json.Kept 127 (.object e.members)) (hf : Free fields)
    (hm : Bson.toJsonMembers fields = e.members) (ht : (json times).withTextTime fields = .ok fields)
    (hv : v ≤ 0x7FFFFFFFFFFFFFFF) :
    (json times).decode (placed fields stream v) = .ok r ↔
      ∃ e', Event.ofJson (.object e.members) = .ok e' ∧ StreamEvent.mk stream v e' = r := by
  have hd : Fields.erase internalIdField (placed fields stream v) = placed fields stream v :=
    Fields.erase_of_not_mem (hf.internalId_placed stream v)
  rw [decode_placed_eq_ok_iff _ hf hd hv, ht]
  have hread : (json times).format.deserialize (Bson.toJson (.document fields)).text.toUTF8 =
      Event.ofJson (.object e.members) := by
    rw [Bson.toJson, hm]
    exact Event.deserialize_of_read hk.read
  constructor
  · rintro ⟨ms, hms, e', he, hr⟩
    cases hms
    exact ⟨e', hread ▸ he, hr⟩
  · rintro ⟨e', he, hr⟩
    exact ⟨fields, rfl, e', hread.trans he, hr⟩

/-- Decoding a document with a date reads the envelope with the text of the date. -/
theorem decode_date_iff (ha : e.Admitted) (hj : ∀ v, e.payload = some (.json v) → Json.Kept 126 v)
    (hm : Bson.toJsonMembers fields = e.members) (ht : timeField ∈ Fields.names fields)
    (hv : v ≤ 0x7FFFFFFFFFFFFFFF) {millis : Int64} :
    (json .nativeDate).decode (dated (placed fields stream v) (some millis)) = .ok r ↔
      ∃ text, textOfNativeDate millis = .ok text ∧
        ∃ e', Event.ofJson (.object (Fields.set "time" (.string text) e.members)) = .ok e' ∧
          StreamEvent.mk stream v e' = r := by
  have hf : Free (Fields.set timeField (.date millis) fields) := by
    refine .of_names ha fun name hn => ?_
    rcases (Fields.mem_names_set _ _ _ _).1 hn with hn | hn
    · exact .inr hn
    · exact .inl (names_fields hm ▸ hn)
  have hplaced : dated (placed fields stream v) (some millis) =
      placed (Fields.set timeField (.date millis) fields) stream v := by
    rw [dated, placed, Fields.set_append ht, placed]
  have hd := Fields.erase_of_not_mem (hf.internalId_placed stream v)
  have htext : (json .nativeDate).withTextTime (Fields.set timeField (.date millis) fields) =
      (textOfNativeDate millis).map fun text => Fields.set timeField (.string text) fields := by
    rw [withTextTime, Fields.get?_set, if_pos rfl]
    simp only [json, Fields.set_set]
    cases textOfNativeDate millis <;> rfl
  have hread (text : String) : (json .nativeDate).format.deserialize
      (Bson.toJson (.document (Fields.set timeField (.string text) fields))).text.toUTF8 =
        Event.ofJson (.object (Fields.set "time" (.string text) e.members)) := by
    rw [Bson.toJson, Bson.toJsonMembers_eq, Fields.map_set, ← Bson.toJsonMembers_eq, hm]
    exact Event.deserialize_of_read (ha.kept_setTime hj text).read
  rw [hplaced, decode_placed_eq_ok_iff _ hf hd hv, htext]
  constructor
  · rintro ⟨ms, hms, e', he, hr⟩
    obtain ⟨text, hmillis, rfl⟩ := Except.map_eq_ok_iff.1 hms
    exact ⟨text, hmillis, e', hread text ▸ he, hr⟩
  · rintro ⟨text, hmillis, e', he, hr⟩
    exact ⟨_, Except.map_eq_ok_iff.2 ⟨text, hmillis, rfl⟩, e', (hread text).trans he, hr⟩

/-! ## Events without a payload -/

theorem kept_of_no_payload (hp : e.payload = none) : ∀ v, e.payload = some (.json v) → Json.Kept 126 v := by
  intro v hv
  rw [hp] at hv
  cases hv

theorem storable_of_no_payload (ha : e.Admitted) (hp : e.payload = none) (ht : e.time = some t)
    (hk : times.Keeps t) : e.Storable times ∧ e.DoublesReadBack := by
  have hno : ∀ u, e.payload ≠ some (.json u) := by
    intro u hu
    rw [hp] at hu
    cases hu
  refine ⟨⟨ha.names, ha.payload, fun u hu => absurd hu (hno u), ?_⟩, fun u hu => absurd hu (hno u)⟩
  intro t' ht'
  rw [ht] at ht'
  cases ht'
  exact hk

/-- The document of an event with a time and no payload. -/
theorem exists_timed (ha : e.Admitted) (hp : e.payload = none) (ht : e.time = some t) :
    ∃ fields, documentOfText e.serialize.toUTF8 = .ok fields ∧ Bson.toJsonMembers fields = e.members ∧ Free fields ∧
      timeField ∈ Fields.names fields := by
  obtain ⟨fields, hdoc, hm⟩ := documentOfText_serialize ha (ha.kept_members (kept_of_no_payload hp))
  refine ⟨fields, hdoc, hm, .of_names ha fun name hn => .inl (names_fields hm ▸ hn), ?_⟩
  have hg := Event.get?_time_members ha.apart
  rw [ht] at hg
  exact names_fields hm ▸ Fields.mem_names_of_mem (Fields.mem_of_get? hg)

theorem exists_encode_timed_iff (ha : e.Admitted) (hp : e.payload = none) (ht : e.time = some t)
    (hv : v ≤ 0x7FFFFFFFFFFFFFFF) :
    (∃ d, (json times).encode e stream (some v) = .ok d) ↔ times.Passes t := by
  rw [← exists_dateOf_iff ht]
  constructor
  · rintro ⟨d, h⟩
    obtain ⟨-, date, bytes, fields, d', hdate, -⟩ := encode_eq_ok_iff.1 h
    exact ⟨date, hdate⟩
  · rintro ⟨date, hdate⟩
    obtain ⟨fields, hdoc, -, hf, -⟩ := exists_timed ha hp ht
    exact ⟨_, encode_eq_dated ha hf hdoc hdate stream hv⟩

/-- What is stored under native dates: the document of the envelope with the date in it. -/
theorem encode_date_inv (ha : e.Admitted) (hp : e.payload = none) (ht : e.time = some t)
    (he : (json .nativeDate).encode e stream (some v) = .ok d) :
    ∃ fields, Bson.toJsonMembers fields = e.members ∧ timeField ∈ Fields.names fields ∧
      d = dated (placed fields stream v) (some (Int64.ofInt t.millis)) := by
  obtain ⟨fields, hdoc, hm, hf, hmem⟩ := exists_timed ha hp ht
  obtain ⟨-, date, bytes, -, -, hdate, -⟩ := encode_eq_ok_iff.1 he
  obtain ⟨millis, hmillis, rfl⟩ := Except.map_eq_ok_iff.1 (dateOf_date ht ▸ hdate)
  obtain ⟨-, rfl⟩ := TimeRepresentation.nativeDate_eq_ok_iff.1 hmillis
  rw [encode_eq_dated ha hf hdoc hdate stream (version_le_of_encode he)] at he
  cases he
  exact ⟨fields, hm, hmem, rfl⟩

/-- A time that comes back is one that the representation keeps. -/
theorem keeps_of_decode (ha : e.Admitted) (hp : e.payload = none) (ht : e.time = some t)
    (he : (json times).encode e stream (some v) = .ok d) (hd : (json times).decode d = .ok r)
    (hr : r.event.time = some t) : times.Keeps t := by
  have hv := version_le_of_encode he
  have hj := kept_of_no_payload hp
  cases times with
  | rfc3339String =>
    obtain ⟨fields, hdoc, hm, hf, -⟩ := exists_timed ha hp ht
    rw [encode_eq_dated ha hf hdoc (dateOf_text e) stream hv] at he
    cases he
    obtain ⟨e', hread, rfl⟩ := (decode_text_iff (ha.kept_members hj) hf hm rfl hv).1 hd
    obtain ⟨htime, -⟩ := Event.ofJson_inv ha.apart.distinct hread
    obtain ⟨text, -, htext⟩ := htime t hr
    exact Timestamp.writable_of_ofRfc3339 htext
  | nativeDate =>
    obtain ⟨fields, hm, hmem, rfl⟩ := encode_date_inv ha hp ht he
    obtain ⟨text, htext, e', hread, rfl⟩ := (decode_date_iff ha hj hm hmem hv).1 hd
    obtain ⟨htime, -⟩ := Event.ofJson_inv (ha.apart.distinct.set _ _) hread
    obtain ⟨text', hget, htext'⟩ := htime t hr
    rw [Fields.get?_set, if_pos rfl] at hget
    cases hget
    exact TimeRepresentation.keeps_of_textOfNativeDate htext htext'

/-- **Times**: of the events without a payload, those are encoded whose time passes, and those times come back that the
representation keeps; the whole event comes back with them. -/
theorem time_kept_iff {draft : Draft} {fresh : String} (hb : draft.build fresh = .ok e) (hp : e.payload = none)
    (ht : e.time = some t) (times : TimeRepresentation) (stream : String) (hv : v ≤ 0x7FFFFFFFFFFFFFFF) :
    ((∃ d, (json times).encode e stream (some v) = .ok d) ↔ times.Passes t) ∧
      ∀ d, (json times).encode e stream (some v) = .ok d →
        ((∃ r, (json times).decode d = .ok r ∧ r.event.time = some t) ↔ times.Keeps t) ∧
          (times.Keeps t → (json times).decode d = .ok ⟨stream, v, e⟩) := by
  have ha := Draft.admitted_of_build hb
  have hkeeps : ∀ d, (json times).encode e stream (some v) = .ok d → times.Keeps t →
      (json times).decode d = .ok ⟨stream, v, e⟩ := by
    intro d he hk
    obtain ⟨hs, hdoubles⟩ := storable_of_no_payload ha hp ht hk
    exact decode_of_encode hs hdoubles he
  refine ⟨exists_encode_timed_iff ha hp ht hv, fun d he => ⟨⟨?_, ?_⟩, hkeeps d he⟩⟩
  · rintro ⟨r, hd, hr⟩
    exact keeps_of_decode ha hp ht he hd hr
  · intro hk
    exact ⟨_, hkeeps d he hk, ht⟩

/-- A draft with nothing but a time. -/
def draftAt (t : Timestamp) : Draft := (Draft.new "/meters/4" "meter.read").withTime t

/-- The event that the draft makes. -/
def eventAt (t : Timestamp) : Event where
  id := "7"
  source := "/meters/4"
  type := "meter.read"
  time := some t
  subject := none
  contentType := none
  payload := none
  extensions := .empty

theorem build_draftAt (t : Timestamp) : (draftAt t).build "7" = .ok (eventAt t) := rfl

/-- A quarter past eleven, one hour east of UTC. -/
def quarterPast : Timestamp := ⟨1700000100, 0, 3600, by decide, by decide, by decide⟩

theorem time_kept_quarterPast :
    (draftAt quarterPast).build "7" = .ok (eventAt quarterPast) ∧ (eventAt quarterPast).payload = none ∧
      (eventAt quarterPast).time = some quarterPast ∧ 12 ≤ 0x7FFFFFFFFFFFFFFF ∧
      ((∃ d, (json .rfc3339String).encode (eventAt quarterPast) "meter-4" (some 12) = .ok d) ↔
          TimeRepresentation.rfc3339String.Passes quarterPast) ∧
        ∀ d, (json .rfc3339String).encode (eventAt quarterPast) "meter-4" (some 12) = .ok d →
          ((∃ r, (json .rfc3339String).decode d = .ok r ∧ r.event.time = some quarterPast) ↔
              TimeRepresentation.rfc3339String.Keeps quarterPast) ∧
            (TimeRepresentation.rfc3339String.Keeps quarterPast →
              (json .rfc3339String).decode d = .ok ⟨"meter-4", 12, eventAt quarterPast⟩) :=
  ⟨build_draftAt quarterPast, rfl, rfl, by decide,
    time_kept_iff (build_draftAt quarterPast) rfl rfl .rfc3339String "meter-4" (by decide)⟩

/-! ## Leap seconds -/

/-- Under native dates another time of the same millisecond is as good, if it is one that dates keep. -/
theorem decode_of_same_millis (ha : e.Admitted) (hp : e.payload = none) (ht : e.time = some t)
    (he : (json .nativeDate).encode e stream (some v) = .ok d) {t' : Timestamp} (hm : t'.millis = t.millis)
    (hk : TimeRepresentation.nativeDate.Keeps t') :
    (json .nativeDate).decode d = .ok ⟨stream, v, { e with time := some t' }⟩ := by
  obtain ⟨fields, hfields, hmem, rfl⟩ := encode_date_inv ha hp ht he
  have hset (text : String) : Fields.set "time" (.string text) e.members =
      Fields.set "time" (.string text) { e with time := some t' }.members := by
    simp [Event.members, Event.attributes, Event.optionalMember, ht, Fields.set]
  have ha' : { e with time := some t' }.Admitted := ⟨ha.names, ha.payload⟩
  obtain ⟨hs, -⟩ := storable_of_no_payload ha' hp rfl hk
  refine (decode_date_iff ha (kept_of_no_payload hp) hfields hmem (version_le_of_encode he)).2 ?_
  refine ⟨_, hm ▸ TimeRepresentation.textOfNativeDate_ok hk, _, ?_, rfl⟩
  rw [hset]
  exact Event.ofJson_of_holds (hs.holds.setTime rfl (TimeRepresentation.ofRfc3339_millis hk)) ha.payload
    fun _ hn => ha'.apart.get? hn

/-- The leap second at the end of 2016. -/
def leapSecond : Timestamp := .toUtc ⟨1483228799, 1000000000, 3600, by decide, by decide, by decide⟩

/-- The first second of 2017. -/
def newYear : Timestamp := .toUtc ⟨1483228800, 0, 3600, by decide, by decide, by decide⟩

/-- A leap second is stored as a date without an error and comes back as the second after it. -/
theorem leapSecond_lost :
    (draftAt leapSecond).build "7" = .ok (eventAt leapSecond) ∧
      ∃ d, (json .nativeDate).encode (eventAt leapSecond) "meter-4" (some 0) = .ok d ∧
        (json .nativeDate).decode d = .ok ⟨"meter-4", 0, eventAt newYear⟩ ∧ leapSecond ≠ newYear := by
  have ha := Draft.admitted_of_build (build_draftAt leapSecond)
  obtain ⟨d, hd⟩ : ∃ d, (json .nativeDate).encode (eventAt leapSecond) "meter-4" (some 0) = .ok d :=
    (exists_encode_timed_iff ha rfl rfl (Nat.zero_le _)).2 ⟨by decide, by decide⟩
  have hk : TimeRepresentation.nativeDate.Keeps newYear := ⟨by decide, by decide, by decide, by decide, by decide⟩
  exact ⟨build_draftAt leapSecond, d, hd, decode_of_same_millis ha rfl rfl hd (by decide) hk, by decide⟩

end Codec

end Chronicle
