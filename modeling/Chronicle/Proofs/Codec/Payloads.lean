import Chronicle.Proofs.Bson.Forms
import Chronicle.Proofs.Codec.RoundTrip

/-!
# Which payloads are kept

Encoding refuses a JSON payload that nests too deep or has an integer that is not signed. Of the others it stores what
extended JSON makes of them: a document is decoded as the event with its payload `restored`, or not at all if that nests
too deep (`Codec.decode_restored_iff`). An object that happens to be a form of extended JSON, at any depth, is thus
changed without an error; without such objects an event comes back as it was.
-/

namespace Chronicle

/-- A payload as it comes back from a document. -/
def Payload.restored : Payload → Payload
  | .json v => .json v.restored
  | p => p

/-- An event with its payload as it comes back from a document. -/
def Event.restored (e : Event) : Event := { e with payload := e.payload.map Payload.restored }

namespace Event

variable {e : Event}

theorem restored_json {u : Json} (h : e.restored.payload = some (.json u)) :
    ∃ v, e.payload = some (.json v) ∧ v.restored = u := by
  obtain ⟨p, hp, hu⟩ := Option.map_eq_some_iff.1 h
  cases p with
  | json v =>
    cases hu
    exact ⟨v, hp, rfl⟩
  | text s => cases hu
  | binary bytes => cases hu

theorem Admitted.restored (h : e.Admitted) : e.restored.Admitted := by
  refine ⟨h.names, ?_⟩
  have hp := h.payload
  show checkPayload e.contentType (e.payload.map Payload.restored) = .ok ()
  cases hpay : e.payload with
  | none => rfl
  | some p =>
    rw [hpay] at hp
    cases p with
    | json v =>
      obtain ⟨hv, hc⟩ := checkPayload_json_iff.1 hp
      exact checkPayload_json_iff.2 ⟨Json.restored_ne_null hv, hc⟩
    | text s => exact hp
    | binary bytes => exact hp

theorem map_restored_optionalMember (name : String) (o : Option String) :
    (optionalMember name o).map (fun m => (m.1, m.2.restored)) = optionalMember name o := by
  cases o with
  | none => rfl
  | some s => rfl

theorem map_restored_payloadMember (p : Option Payload) :
    (payloadMember p).map (fun m => (m.1, m.2.restored)) = payloadMember (p.map Payload.restored) := by
  cases p with
  | none => rfl
  | some p => cases p <;> rfl

theorem map_restored_extensionMembers (xs : List (String × Extension)) :
    (extensionMembers xs).map (fun m => (m.1, m.2.restored)) = extensionMembers xs := by
  rw [extensionMembers, List.map_map]
  refine List.map_congr_left fun x _ => ?_
  have hx : Json.Kept 0 (extensionToJson x.2) := .extension x.2
  have hk := Bson.toJson_ofJson hx.plain
  exact Prod.ext rfl (Json.restored_of_keeps hk)

/-- The envelope of a restored event is that of the event with each member restored: only the payload can change. -/
theorem members_restored (e : Event) : e.restored.members = e.members.map fun m => (m.1, m.2.restored) := by
  simp only [members, attributes, List.map_append, map_restored_optionalMember, map_restored_payloadMember,
    map_restored_extensionMembers]
  rfl

/-- A JSON payload, if it is one, whose text says what it is. -/
def LegiblePayload (e : Event) : Prop := ∀ v, e.payload = some (.json v) → v.Legible

/-- The depth of a JSON payload. -/
def PayloadWithin (levels : Nat) (e : Event) : Prop := ∀ v, e.payload = some (.json v) → v.depth ≤ levels

theorem legible_members (hd : Fields.Distinct e.members) (hl : e.LegiblePayload) :
    (Json.object e.members).Legible := by
  refine .object hd fun m hm => ?_
  rcases mem_members hm with ⟨s, hs⟩ | ⟨x, hx⟩ | hp
  · have hk : Json.Kept 0 (.string s) := .string s
    exact hs ▸ hk.legible
  · have hk : Json.Kept 0 (extensionToJson x) := .extension x
    exact hx ▸ hk.legible
  · exact hl m.2 hp

theorem mem_members_of_json {v : Json} (h : e.payload = some (.json v)) : ("data", v) ∈ e.members := by
  refine List.mem_append_left _ (List.mem_append_right _ ?_)
  rw [h]
  exact List.mem_cons_self

/-- The payload decides how deep an envelope nests. -/
theorem depth_members_le_iff (e : Event) (levels : Nat) :
    (Json.object e.members).depth ≤ levels + 1 ↔ e.PayloadWithin levels := by
  rw [Json.depth, Nat.succ_le_succ_iff, Json.depthOfMembers_le_iff]
  constructor
  · intro h v hv
    exact h _ (mem_members_of_json hv)
  · intro h m hm
    rcases mem_members hm with ⟨s, hs⟩ | ⟨x, hx⟩ | hp
    · exact hs ▸ (Json.Kept.string s).depth_le
    · exact hx ▸ (Json.Kept.extension x).depth_le
    · exact h m.2 hp

theorem read_members_eq_ok_iff (hd : Fields.Distinct e.members) (hl : e.LegiblePayload) {u : Json} :
    Json.read (Text.symbols (Json.object e.members).text.toUTF8) = .ok u ↔ u = .object e.members ∧ e.PayloadWithin 126 := by
  rw [(legible_members hd hl).read_eq_ok_iff, Json.standardLevels, depth_members_le_iff]

/-- The text of an envelope is read as the envelope, if the payload does not nest too deep. -/
theorem deserialize_members_iff (hd : Fields.Distinct e.members) (hl : e.LegiblePayload) {e' : Event} :
    deserialize (Json.object e.members).text.toUTF8 = .ok e' ↔
      e.PayloadWithin 126 ∧ ofJson (.object e.members) = .ok e' := by
  constructor
  · intro h
    cases hr : Json.read (Text.symbols (Json.object e.members).text.toUTF8) with
    | error problem =>
      rw [deserialize, ofSymbols, hr] at h
      cases h
    | ok u =>
      obtain ⟨rfl, hdepth⟩ := (read_members_eq_ok_iff hd hl).1 hr
      rw [deserialize_of_read hr] at h
      exact ⟨hdepth, h⟩
  · rintro ⟨hdepth, he⟩
    rw [deserialize_of_read ((read_members_eq_ok_iff hd hl).2 ⟨rfl, hdepth⟩), he]

theorem Admitted.deserialize_members_iff (h : e.Admitted) (hl : e.LegiblePayload) {e' : Event} :
    deserialize (Json.object e.members).text.toUTF8 = .ok e' ↔
      e.PayloadWithin 126 ∧ ofJson (.object e.members) = .ok e' :=
  Event.deserialize_members_iff h.apart.distinct hl

/-- An envelope that holds its event is read as it. -/
theorem Admitted.ofJson_members (h : e.Admitted) (hh : e.Holds e.members) : ofJson (.object e.members) = .ok e :=
  ofJson_of_holds hh h.payload fun _ hn => h.apart.get? hn

/-- The text of an envelope without a time is read as its event, if the payload does not nest too deep. -/
theorem deserialize_members_eq_ok_iff (h : e.Admitted) (hl : e.LegiblePayload) (ht : e.time = none) {e' : Event} :
    deserialize (Json.object e.members).text.toUTF8 = .ok e' ↔ e.PayloadWithin 126 ∧ e' = e := by
  have hh : e.Holds e.members := h.apart.holds_of_writable fun t hte => by rw [ht] at hte; cases hte
  rw [h.deserialize_members_iff hl, h.ofJson_members hh, Except.ok.injEq, eq_comm (a := e)]

end Event

namespace Codec

variable {times : TimeRepresentation} {e : Event} {fields : Document} {stream : String} {v : Nat} {d : Document}
  {r : StreamEvent}

/-- A document is made of an envelope that is read, and holds what its members are stored as. -/
theorem documentOfText_serialize_iff (ha : e.Admitted) (hl : e.LegiblePayload) :
    documentOfText e.serialize.toUTF8 = .ok fields ↔
      e.PayloadWithin 126 ∧ Bson.ofJsonMembers e.members = .ok fields := by
  rw [documentOfText, Event.serialize, Event.toJson_eq ha.apart]
  cases hr : Json.read (Text.symbols (Json.object e.members).text.toUTF8) with
  | error problem =>
    refine ⟨fun h => (by cases h), fun h => ?_⟩
    rw [(Event.read_members_eq_ok_iff ha.apart.distinct hl).2 ⟨rfl, h.1⟩] at hr
    cases hr
  | ok u =>
    obtain ⟨rfl, hdepth⟩ := (Event.read_members_eq_ok_iff ha.apart.distinct hl).1 hr
    cases hm : Bson.ofJsonMembers e.members with
    | error n => simp [Bson.ofJson, hm]
    | ok fields' =>
      have hof : Bson.ofJson (.object e.members) = .ok (.document fields') := by
        rw [Bson.ofJson, hm, Except.ok_bind, Bson.ofDocument_of_plainKeys (fun m h => ha.plainKey h) hm]
        rfl
      simp [hof, hdepth]

/-- The document of an event without a time has just the fields of its envelope. -/
theorem encode_eq_placed_iff (ha : e.Admitted) (hl : e.LegiblePayload) (ht : e.time = none) :
    (json times).encode e stream (some v) = .ok d ↔
      v ≤ 0x7FFFFFFFFFFFFFFF ∧ e.PayloadWithin 126 ∧
        ∃ fields, Bson.ofJsonMembers e.members = .ok fields ∧ Free fields ∧ d = placed fields stream v := by
  constructor
  · intro he
    have hv := version_le_of_encode he
    obtain ⟨-, date, bytes, fields, -, -, hb, hdoc, -⟩ := encode_eq_ok_iff.1 he
    cases hb
    obtain ⟨hdepth, hm⟩ := (documentOfText_serialize_iff ha hl).1 hdoc
    have hf : Free fields := .of_names ha fun name hn => .inl (Bson.names_ofJsonMembers hm ▸ hn)
    rw [encode_eq_dated ha hf hdoc (dateOf_of_no_time times ht) stream hv] at he
    cases he
    exact ⟨hv, hdepth, fields, hm, hf, rfl⟩
  · rintro ⟨hv, hdepth, fields, hm, hf, rfl⟩
    have hdoc := (documentOfText_serialize_iff ha hl).2 ⟨hdepth, hm⟩
    exact encode_eq_dated ha hf hdoc (dateOf_of_no_time times ht) stream hv

/-- Encoding refuses payloads that nest too deep or have integers that are not signed. -/
theorem exists_encode_iff (ha : e.Admitted) (hl : e.LegiblePayload) (ht : e.time = none) (times : TimeRepresentation)
    (stream : String) (hv : v ≤ 0x7FFFFFFFFFFFFFFF) :
    (∃ d, (json times).encode e stream (some v) = .ok d) ↔
      e.PayloadWithin 126 ∧
        ∀ u, e.payload = some (.json u) → ∀ n, .integer n ∈ u.parts → n.val < 0x8000000000000000 := by
  have hstored : (∃ fields, Bson.ofJsonMembers e.members = .ok fields) ↔
      ∀ u, e.payload = some (.json u) → ∃ b, Bson.ofJson u = .ok b := by
    constructor
    · rintro ⟨fields, hf⟩ u hu
      exact (Bson.ofJsonMembers_inv hf).1 _ (Event.mem_members_of_json hu)
    · intro h
      refine Bson.exists_ofJsonMembers fun m hm => ?_
      rcases Event.mem_members hm with ⟨s, hs⟩ | ⟨x, hx⟩ | hp
      · exact ⟨.string s, by rw [hs]; rfl⟩
      · have hk : Json.Kept 0 (Event.extensionToJson x) := .extension x
        obtain ⟨b, hb, -⟩ := Bson.toJson_ofJson hk.plain
        exact ⟨b, by rw [hx, hb]⟩
      · exact h m.2 hp
  simp only [← Bson.exists_ofJson_iff]
  rw [← hstored]
  constructor
  · rintro ⟨d, he⟩
    obtain ⟨-, hdepth, fields, hm, -⟩ := (encode_eq_placed_iff ha hl ht).1 he
    exact ⟨hdepth, fields, hm⟩
  · rintro ⟨hdepth, fields, hm⟩
    have hf : Free fields := .of_names ha fun name hn => .inl (Bson.names_ofJsonMembers hm ▸ hn)
    exact ⟨_, (encode_eq_placed_iff ha hl ht).2 ⟨hv, hdepth, fields, hm, hf, rfl⟩⟩

/-- A document without a time is decoded as the event with its payload restored, or not at all if
that nests too deep. -/
theorem decode_restored_iff (ha : e.Admitted) (hl : e.LegiblePayload) (hl' : e.restored.LegiblePayload)
    (ht : e.time = none) (he : (json times).encode e stream (some v) = .ok d) :
    (json times).decode d = .ok r ↔ e.restored.PayloadWithin 126 ∧ r = ⟨stream, v, e.restored⟩ := by
  obtain ⟨hv, -, fields, hm, hf, rfl⟩ := (encode_eq_placed_iff ha hl ht).1 he
  have htext : (json times).withTextTime fields = .ok fields :=
    withTextTime_of_not_mem _ (Bson.names_ofJsonMembers hm ▸ not_mem_names_of_no_time ha ht)
  have hmembers : Bson.toJson (.document fields) = .object e.restored.members := by
    rw [Bson.toJson, Json.toJsonMembers_restored hm, Event.members_restored]
  have hread (e' : Event) : (json times).format.deserialize (Bson.toJson (.document fields)).text.toUTF8 = .ok e' ↔
      e.restored.PayloadWithin 126 ∧ e' = e.restored := by
    rw [hmembers]
    exact Event.deserialize_members_eq_ok_iff ha.restored hl' ht
  rw [decode_placed_eq_ok_iff _ hf (Fields.erase_of_not_mem (hf.internalId_placed stream v)) hv, htext]
  constructor
  · rintro ⟨ms, hms, e', he', rfl⟩
    cases hms
    obtain ⟨hdepth, rfl⟩ := (hread e').1 he'
    exact ⟨hdepth, rfl⟩
  · rintro ⟨hdepth, rfl⟩
    exact ⟨fields, rfl, _, (hread _).2 ⟨hdepth, rfl⟩, rfl⟩

theorem restored_eq_of_formFree (hi : ∀ u, e.payload = some (.json u) → ∀ n, .integer n ∈ u.parts →
    n.val < 0x8000000000000000) (hf : ∀ u, e.payload = some (.json u) → u.FormFree) : e.restored = e := by
  have hp : e.payload.map Payload.restored = e.payload := by
    cases hpay : e.payload with
    | none => rfl
    | some p =>
      cases p with
      | json u =>
        have hk := Bson.keeps_of_formFree (hi u hpay) (hf u hpay)
        exact congrArg (some ∘ Payload.json) (Json.restored_of_keeps hk)
      | text s => rfl
      | binary bytes => rfl
  rw [Event.restored, hp]

/-- **Payloads**: of the events without a time, those are encoded whose payload does not nest too deep and has only
signed integers. They are decoded with their payload restored, or not at all if that nests too deep. So an event comes
back as it was just if restoring does not change it, as without forms of extended JSON it never does. -/
theorem payload_kept_iff {draft : Draft} {fresh : String} (hb : draft.build fresh = .ok e) (ht : e.time = none)
    (hw : ∀ u, e.payload = some (.json u) → u.WellFormed) (hd : e.DoublesReadBack) (hd' : e.restored.DoublesReadBack)
    (times : TimeRepresentation) (stream : String) (hv : v ≤ 0x7FFFFFFFFFFFFFFF) :
    ((∃ d, (json times).encode e stream (some v) = .ok d) ↔ e.PayloadWithin 126 ∧
        ∀ u, e.payload = some (.json u) → ∀ n, .integer n ∈ u.parts → n.val < 0x8000000000000000) ∧
      ∀ d, (json times).encode e stream (some v) = .ok d →
        (∀ r, (json times).decode d = .ok r ↔ e.restored.PayloadWithin 126 ∧ r = ⟨stream, v, e.restored⟩) ∧
          ((json times).decode d = .ok ⟨stream, v, e⟩ ↔ e.restored = e) ∧
            ((∀ u, e.payload = some (.json u) → u.FormFree) → (json times).decode d = .ok ⟨stream, v, e⟩) := by
  have ha := Draft.admitted_of_build hb
  have hl : e.LegiblePayload := fun u hu => ⟨hw u hu, hd u hu⟩
  have hl' : e.restored.LegiblePayload := by
    intro u hu
    obtain ⟨u', hu', rfl⟩ := Event.restored_json hu
    exact ⟨(hw u' hu').restored, hd' _ hu⟩
  have haccepted := exists_encode_iff ha hl ht times stream hv
  refine ⟨haccepted, fun d he => ?_⟩
  have hdecode (r : StreamEvent) := decode_restored_iff (r := r) ha hl hl' ht he
  obtain ⟨hdepth, hi⟩ := haccepted.1 ⟨d, he⟩
  have hkept : (json times).decode d = .ok ⟨stream, v, e⟩ ↔ e.restored = e := by
    rw [hdecode]
    constructor
    · rintro ⟨-, h⟩
      exact ((StreamEvent.mk.injEq ..).mp h).2.2.symm
    · intro h
      rw [h]
      exact ⟨hdepth, rfl⟩
  exact ⟨hdecode, hkept, fun hf => hkept.2 (restored_eq_of_formFree hi hf)⟩

/-- A draft with a JSON payload. -/
def draftOf (v : Json) : Draft := (Draft.new "/meters/4" "meter.read").withJson v

/-- The event that the draft makes. -/
def eventOf (v : Json) : Event where
  id := "7"
  source := "/meters/4"
  type := "meter.read"
  time := none
  subject := none
  contentType := some "application/json"
  payload := some (.json v)
  extensions := .empty

/-- A JSON payload without doubles says what it is. -/
theorem legible_eventOf {v : Json} (hw : v.WellFormed) (hd : ∀ x, .double x ∉ v.parts) :
    (∀ u, (eventOf v).payload = some (.json u) → u.WellFormed) ∧ (eventOf v).DoublesReadBack := by
  constructor
  · intro u hu
    cases hu
    exact hw
  · intro u hu x hx
    cases hu
    exact absurd hx (hd x)

/-- Five kilowatt hours. -/
def fiveHours : Json := .object [("kWh", .integer (.ofInt64 5))]

/-- The same amount, with its number in a form of extended JSON. -/
def fiveForm : Json := .object [("kWh", .object [("$numberInt", .string "5")])]

theorem legible_fiveHours :
    (∀ u, (eventOf fiveHours).payload = some (.json u) → u.WellFormed) ∧ (eventOf fiveHours).DoublesReadBack := by
  refine legible_eventOf ?_ fun x hx => ?_
  · simp [fiveHours, Json.WellFormed, Json.WellFormedMembers, Fields.Distinct, Fields.names]
  · simp [fiveHours, Json.parts, Json.partsOfMembers] at hx

theorem legible_fiveForm :
    (∀ u, (eventOf fiveForm).payload = some (.json u) → u.WellFormed) ∧ (eventOf fiveForm).DoublesReadBack := by
  refine legible_eventOf ?_ fun x hx => ?_
  · simp [fiveForm, Json.WellFormed, Json.WellFormedMembers, Fields.Distinct, Fields.names]
  · simp [fiveForm, Json.parts, Json.partsOfMembers] at hx

theorem payload_kept_fiveHours :
    (draftOf fiveHours).build "7" = .ok (eventOf fiveHours) ∧ (eventOf fiveHours).time = none ∧
      (∀ u, (eventOf fiveHours).payload = some (.json u) → u.WellFormed) ∧ (eventOf fiveHours).DoublesReadBack ∧
      (eventOf fiveHours).restored.DoublesReadBack ∧ 12 ≤ 0x7FFFFFFFFFFFFFFF ∧
      ((∃ d, (json .nativeDate).encode (eventOf fiveHours) "meter-4" (some 12) = .ok d) ↔
          (eventOf fiveHours).PayloadWithin 126 ∧
            ∀ u, (eventOf fiveHours).payload = some (.json u) → ∀ n, .integer n ∈ u.parts →
              n.val < 0x8000000000000000) ∧
        ∀ d, (json .nativeDate).encode (eventOf fiveHours) "meter-4" (some 12) = .ok d →
          (∀ r, (json .nativeDate).decode d = .ok r ↔
              (eventOf fiveHours).restored.PayloadWithin 126 ∧ r = ⟨"meter-4", 12, (eventOf fiveHours).restored⟩) ∧
            ((json .nativeDate).decode d = .ok ⟨"meter-4", 12, eventOf fiveHours⟩ ↔
              (eventOf fiveHours).restored = eventOf fiveHours) ∧
            ((∀ u, (eventOf fiveHours).payload = some (.json u) → u.FormFree) →
              (json .nativeDate).decode d = .ok ⟨"meter-4", 12, eventOf fiveHours⟩) := by
  obtain ⟨hw, hd⟩ := legible_fiveHours
  have hb : (draftOf fiveHours).build "7" = .ok (eventOf fiveHours) := rfl
  have hd' : (eventOf fiveHours).restored.DoublesReadBack := hd
  exact ⟨hb, rfl, hw, hd, hd', by decide, payload_kept_iff hb rfl hw hd hd' .nativeDate "meter-4" (by decide)⟩

/-- A form of extended JSON in a payload is stored without an error and comes back as the number that it stands for. -/
theorem fiveForm_lost :
    (draftOf fiveForm).build "7" = .ok (eventOf fiveForm) ∧
      ∃ d, (json .rfc3339String).encode (eventOf fiveForm) "meter-4" (some 0) = .ok d ∧
        (json .rfc3339String).decode d = .ok ⟨"meter-4", 0, eventOf fiveHours⟩ ∧ eventOf fiveHours ≠ eventOf fiveForm := by
  have hb : (draftOf fiveForm).build "7" = .ok (eventOf fiveForm) := rfl
  have ha := Draft.admitted_of_build hb
  have hl : (eventOf fiveForm).LegiblePayload := fun u hu => ⟨legible_fiveForm.1 u hu, legible_fiveForm.2 u hu⟩
  have hl' : (eventOf fiveHours).LegiblePayload := fun u hu => ⟨legible_fiveHours.1 u hu, legible_fiveHours.2 u hu⟩
  have hdepth : (eventOf fiveHours).PayloadWithin 126 := by
    intro u hu
    cases hu
    decide
  obtain ⟨d, he⟩ : ∃ d, (json .rfc3339String).encode (eventOf fiveForm) "meter-4" (some 0) = .ok d := by
    refine (exists_encode_iff ha hl rfl .rfc3339String "meter-4" (Nat.zero_le _)).2 ⟨?_, ?_⟩
    · intro u hu
      cases hu
      decide
    · intro u hu n hn
      cases hu
      simp [fiveForm, Json.parts, Json.partsOfMembers] at hn
  have hdecode := (decode_restored_iff ha hl hl' rfl he).2 ⟨hdepth, rfl⟩
  refine ⟨hb, d, he, hdecode, fun h => ?_⟩
  cases congrArg Event.payload h

end Codec

end Chronicle
