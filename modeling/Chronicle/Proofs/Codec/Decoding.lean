import Chronicle.Codec.Basic
import Chronicle.Proofs.Except
import Chronicle.Proofs.Fields

/-!
# What a document is decoded as

Decoding reads the stream's fields from the whole document (`Codec.decode_eq`), and the event from the fields that are
left without them and without the key of the database (`Codec.ownFields`), after a date has become text if times are
stored as dates (`Codec.withTextTime_eq`).
-/

namespace Chronicle.Codec

variable {c : Codec} {d fields : Document} {r : StreamEvent}

/-- The fields of a document that are the event's own. -/
def ownFields (d : Document) : Document :=
  Fields.erase streamVersionField (Fields.erase streamIdField (Fields.erase internalIdField d))

theorem get?_ownFields {name : String} (hi : internalIdField ≠ name) (hs : streamIdField ≠ name)
    (hv : streamVersionField ≠ name) (d : Document) : Fields.get? name (ownFields d) = Fields.get? name d := by
  rw [ownFields, Fields.get?_erase_of_ne hv, Fields.get?_erase_of_ne hs, Fields.get?_erase_of_ne hi]

theorem get?_time_ownFields (d : Document) : Fields.get? timeField (ownFields d) = Fields.get? timeField d :=
  get?_ownFields (by decide) (by decide) (by decide) d

theorem streamOf_erase {name : String} (hn : name ≠ streamIdField) (d : Document) :
    streamOf (Fields.erase name d) = streamOf d := by
  rw [streamOf, Fields.get?_erase_of_ne hn, streamOf]

theorem versionOf_erase {name : String} (hn : name ≠ streamVersionField) (d : Document) :
    versionOf (Fields.erase name d) = versionOf d := by
  rw [versionOf, Fields.get?_erase_of_ne hn, versionOf]

/-- The steps of decoding, each with the fields that it reads. -/
theorem decode_eq (c : Codec) (d : Document) :
    c.decode d = (streamOf d >>= fun stream => versionOf d >>= fun version =>
      c.withTextTime (ownFields d) >>= fun fields =>
      (c.format.deserialize (Bson.toJson (.document fields)).text.toUTF8).mapError .format >>= fun event =>
      .ok ⟨stream, version, event⟩) := by
  rw [decode]
  dsimp only
  rw [streamOf_erase (by decide), versionOf_erase (by decide), versionOf_erase (by decide)]
  refine bind_congr fun stream => bind_congr fun version => bind_congr fun fields => ?_
  cases c.format.deserialize (Bson.toJson (.document fields)).text.toUTF8 <;> rfl

theorem decode_eq_ok_iff :
    c.decode d = .ok r ↔ streamOf d = .ok r.stream ∧ versionOf d = .ok r.version ∧
      ∃ fields, c.withTextTime (ownFields d) = .ok fields ∧
        c.format.deserialize (Bson.toJson (.document fields)).text.toUTF8 = .ok r.event := by
  simp only [decode_eq, Except.bind_eq_ok_iff, Except.mapError_eq_ok_iff, Except.ok.injEq]
  constructor
  · rintro ⟨stream, hs, version, hv, fields, ht, event, he, rfl⟩
    exact ⟨hs, hv, fields, ht, he⟩
  · rintro ⟨hs, hv, fields, ht, he⟩
    exact ⟨_, hs, _, hv, fields, ht, _, he, rfl⟩

/-! ## Dates -/

/-- The date that decoding has to write as text, if there is one. -/
def dateToWrite? (c : Codec) (d : Document) : Option Int64 :=
  match c.times, Fields.get? timeField d with
  | .nativeDate, some (.date millis) => some millis
  | _, _ => none

theorem withTextTime_eq (c : Codec) (d : Document) :
    c.withTextTime d = match c.dateToWrite? d with
      | some millis => (textOfNativeDate millis).map fun text => Fields.set timeField (.string text) d
      | none => .ok d := by
  cases ht : c.times with
  | rfc3339String => simp only [withTextTime, dateToWrite?, ht]
  | nativeDate =>
    cases hd : Fields.get? timeField d with
    | none => simp only [withTextTime, dateToWrite?, ht, hd]
    | some b =>
      cases b with
      | date millis =>
        simp only [withTextTime, dateToWrite?, ht, hd]
        cases textOfNativeDate millis <;> rfl
      | _ => simp only [withTextTime, dateToWrite?, ht, hd]

/-- What is given to the format: the fields as they are, or with the text of a date in its place. -/
theorem withTextTime_eq_ok_iff :
    c.withTextTime d = .ok fields ↔ (c.dateToWrite? d = none ∧ fields = d) ∨
      ∃ millis text, c.dateToWrite? d = some millis ∧ textOfNativeDate millis = .ok text ∧
        fields = Fields.set timeField (.string text) d := by
  rw [withTextTime_eq]
  cases c.dateToWrite? d with
  | none => simp [eq_comm]
  | some millis =>
    simp only [Except.map_eq_ok_iff, @eq_comm _ fields]
    simp

/-- Without a date there is none to write, whatever the codec. -/
theorem dateToWrite?_of_no_date (c : Codec) (h : ∀ millis, Fields.get? timeField d ≠ some (.date millis)) :
    c.dateToWrite? d = none := by
  unfold dateToWrite?
  split
  · rename_i millis _ hd
    exact absurd hd (h millis)
  · rfl

end Chronicle.Codec
