import Chronicle.Event.CloudEvent
import Chronicle.Proofs.Event.Rules

/-!
# Events through a CloudEvents toolkit

A toolkit makes events of its own from attributes and tells what is in them (`Toolkit`). All that is asked of it is that
it refuses nothing but an empty source and tells what was set (`Toolkit.Faithful`). An event that the rules admit can
then be handed to it and taken back, and `Toolkit.there_and_back` says what it is afterwards: its time is in UTC, and a
payload without a content type has got one. A content type without a payload is gone, although a toolkit's event can
hold it and would give it back (`Toolkit.contentType_lost`).
-/

namespace Chronicle

/-! ## Building and taking over -/

/-- A draft is built just if its required attributes are not empty, and its extension names and its payload pass. -/
theorem Draft.build_eq_ok_iff {d : Draft} {fresh : String} {e : Event} :
    d.build fresh = .ok e ↔
      d.id.getD fresh ≠ "" ∧ d.source ≠ "" ∧ d.type ≠ "" ∧
        (∀ x ∈ d.extensions.entries, checkExtensionName x.1 = .ok ()) ∧
        checkPayload d.contentType d.payload = .ok () ∧ e = { d with id := d.id.getD fresh } := by
  have hnames : d.extensions.names.forM checkExtensionName = .ok () ↔
      ∀ x ∈ d.extensions.entries, checkExtensionName x.1 = .ok () := by
    rw [Except.forM_eq_ok_iff, NameMap.names, List.forall_mem_map]
  simp only [← String.isEmpty_eq_false_iff]
  rw [build]
  cases (d.id.getD fresh).isEmpty with
  | true => simp
  | false =>
    cases d.source.isEmpty with
    | true => simp
    | false =>
      cases d.type.isEmpty with
      | true => simp
      | false =>
        simp only [Bool.false_eq_true, if_false, true_and, Except.bind_eq_ok_iff, Except.pure_eq_ok, Except.ok.injEq,
          ← hnames]
        constructor
        · rintro ⟨_, hn, _, hp, rfl⟩
          exact ⟨hn, hp, rfl⟩
        · rintro ⟨hn, hp, rfl⟩
          exact ⟨(), hn, (), hp, rfl⟩

/-- What a toolkit's event is when it has been taken over. -/
def CloudEvent.asEvent (c : CloudEvent) : Event where
  id := c.id
  source := c.source
  type := c.type
  time := c.time.map Timestamp.toUtc
  subject := c.subject
  contentType := if c.payload.isNone then c.contentType else c.draft.contentType
  payload := c.payload
  extensions := c.extensions

/-- A toolkit's event is taken over just if its required attributes are not empty, and its extension names and its
payload pass. -/
theorem CloudEvent.toEvent_eq_ok_iff {c : CloudEvent} {e : Event} :
    c.toEvent = .ok e ↔
      c.id ≠ "" ∧ c.source ≠ "" ∧ c.type ≠ "" ∧ (∀ x ∈ c.extensions.entries, checkExtensionName x.1 = .ok ()) ∧
        checkPayload c.draft.contentType c.payload = .ok () ∧ e = c.asEvent := by
  simp only [toEvent, Except.bind_eq_ok_iff, Draft.build_eq_ok_iff, Except.pure_eq_ok, Except.ok.injEq]
  constructor
  · rintro ⟨_, ⟨hid, hsource, htype, hnames, hpayload, rfl⟩, rfl⟩
    refine ⟨hid, hsource, htype, hnames, hpayload, ?_⟩
    cases hp : c.payload <;> simp [draft, asEvent, hp]
  · rintro ⟨hid, hsource, htype, hnames, hpayload, rfl⟩
    refine ⟨_, ⟨hid, hsource, htype, hnames, hpayload, rfl⟩, ?_⟩
    cases hp : c.payload <;> simp [draft, asEvent, hp]

/-! ## Toolkits -/

/-- A CloudEvents toolkit: it makes events of its own from attributes, and tells what is in them. -/
structure Toolkit where
  Made : Type
  make : CloudEvent → Except EventError Made
  read : Made → CloudEvent

/-- What an event says of itself to a toolkit. -/
def Event.asCloudEvent (e : Event) : CloudEvent where
  specVersion := .v10
  id := e.id
  source := e.source
  type := e.type
  time := e.time.map Timestamp.toUtc
  subject := e.subject
  contentType := e.payload.map fun p => e.contentType.getD p.defaultContentType
  payload := e.payload
  extensions := e.extensions

namespace Toolkit

variable {t : Toolkit} {e e' : Event}

/-- A toolkit refuses nothing but an empty source, and tells what was set. -/
structure Faithful (t : Toolkit) : Prop where
  makes : ∀ c : CloudEvent, c.source ≠ "" → ∃ m, t.make c = .ok m
  tells : ∀ c m, t.make c = .ok m → t.read m = c

/-- An event, made anew by a toolkit. -/
def ofEvent (t : Toolkit) (e : Event) : Except EventError t.Made := t.make e.asCloudEvent

/-- The event of a toolkit's event. -/
def toEvent (t : Toolkit) (m : t.Made) : Except EventError Event := (t.read m).toEvent

/-- The toolkit whose events are records of what was set. -/
def records : Toolkit where
  Made := CloudEvent
  make c := if c.source.isEmpty then .error .emptySource else .ok c
  read := id

/-- With the records as the toolkit, the conversions are the ones between events and records. -/
theorem ofEvent_records (e : Event) : records.ofEvent e = e.toCloudEvent := rfl

theorem toEvent_records (c : CloudEvent) : records.toEvent c = c.toEvent := rfl

theorem faithful_records : records.Faithful where
  makes c hc := ⟨c, by simp [records, hc]⟩
  tells c m hm := by
    simp only [records] at hm ⊢
    split at hm
    · cases hm
    · cases hm
      rfl

/-- A payload that passes under its content type passes under the one that it gets. -/
theorem checkPayload_asCloudEvent (h : e.Admitted) :
    checkPayload e.asCloudEvent.draft.contentType e.asCloudEvent.payload = .ok () := by
  have hp := h.payload
  simp only [Event.asCloudEvent, CloudEvent.draft]
  cases hpayload : e.payload with
  | none => rfl
  | some p =>
    cases hc : e.contentType with
    | some c => simpa [hpayload, hc] using hp
    | none =>
      simp only [hpayload, hc] at hp
      cases p with
      | json v =>
        have hjson : isJsonContentType (some "application/json") = true := by decide +kernel
        exact checkPayload_json_iff.2 ⟨(checkPayload_json_iff.1 hp).1, hjson⟩
      | text s => simp [checkPayload_text_iff, isJsonContentType_none] at hp
      | binary bytes => rfl

/-- What an event is when it comes back from a toolkit. -/
structure Returns (e e' : Event) : Prop where
  id : e'.id = e.id
  source : e'.source = e.source
  type : e'.type = e.type
  subject : e'.subject = e.subject
  extensions : e'.extensions = e.extensions
  payload : e'.payload = e.payload
  /-- The instant is the same, shown in UTC. -/
  time : Option.Rel (fun t t' => t'.secs = t.secs ∧ t'.nanos = t.nanos ∧ t'.offset = 0) e.time e'.time
  contentType : e'.contentType =
    match e.payload, e.contentType with
    | none, _ => none
    | some _, some c => some c
    | some (.json _), none => some "application/json"
    | some (.text _), none => some "text/plain"
    | some (.binary _), none => some "application/octet-stream"

theorem returns_asEvent (e : Event) : Returns e e.asCloudEvent.asEvent where
  id := rfl
  source := rfl
  type := rfl
  subject := rfl
  extensions := rfl
  payload := rfl
  time := by
    cases ht : e.time with
    | none => simp [Event.asCloudEvent, CloudEvent.asEvent, ht]
    | some t => simp [Event.asCloudEvent, CloudEvent.asEvent, ht, Timestamp.toUtc]
  contentType := by
    cases hp : e.payload with
    | none => simp [Event.asCloudEvent, CloudEvent.asEvent, hp]
    | some p =>
      cases hc : e.contentType <;> cases p <;>
        simp [Event.asCloudEvent, CloudEvent.asEvent, CloudEvent.draft, Payload.defaultContentType, hp, hc]

/-- **There and back**: an event that the rules admit is taken by every toolkit, and comes back as `Returns` says. -/
theorem there_and_back (ht : t.Faithful) (hid : e.id ≠ "") (hsource : e.source ≠ "") (htype : e.type ≠ "")
    (h : e.Admitted) : ∃ m e', t.ofEvent e = .ok m ∧ t.toEvent m = .ok e' ∧ Returns e e' := by
  obtain ⟨m, hm⟩ := ht.makes e.asCloudEvent hsource
  refine ⟨m, e.asCloudEvent.asEvent, hm, ?_, returns_asEvent e⟩
  rw [toEvent, ht.tells _ m hm]
  exact CloudEvent.toEvent_eq_ok_iff.2 ⟨hid, hsource, htype, h.names, checkPayload_asCloudEvent h, rfl⟩

/-- An event in an hour that is not UTC's, with bytes of no content type. -/
def snapshot : Event where
  id := "7"
  source := "/meters/4"
  type := "meter.snapshot"
  time := some ⟨1712345678, 125000000, -19800, by decide, by decide, by decide⟩
  subject := some "kWh"
  contentType := none
  payload := some (.binary [0, 255])
  extensions := .ofList [("tenant", .string "x"), ("shard", .integer 9), ("final", .boolean true)]

theorem there_and_back_snapshot :
    (records.Faithful ∧ snapshot.id ≠ "" ∧ snapshot.source ≠ "" ∧ snapshot.type ≠ "" ∧ snapshot.Admitted) ∧
      ∃ m e', records.ofEvent snapshot = .ok m ∧ records.toEvent m = .ok e' ∧ Returns snapshot e' ∧
        e'.contentType = some "application/octet-stream" := by
  have hadmitted : snapshot.Admitted := ⟨by decide, rfl⟩
  obtain ⟨m, e', hm, he, hreturns⟩ :=
    there_and_back faithful_records (by decide : snapshot.id ≠ "") (by decide) (by decide) hadmitted
  exact ⟨⟨faithful_records, by decide, by decide, by decide, hadmitted⟩, m, e', hm, he, hreturns, hreturns.contentType⟩

/-- An event that names a content type, and has no payload. -/
def announcement : Event := ⟨"7", "/meters/4", "meter.read", none, none, some "text/plain", none, .empty⟩

/-- Its content type does not come back, although a toolkit's event that holds it gives it back. -/
theorem contentType_lost :
    announcement.id ≠ "" ∧ announcement.source ≠ "" ∧ announcement.type ≠ "" ∧ announcement.Admitted ∧
      (∃ m e', announcement.toCloudEvent = .ok m ∧ m.toEvent = .ok e' ∧ e'.contentType ≠ announcement.contentType) ∧
      { announcement.asCloudEvent with contentType := announcement.contentType }.toEvent = .ok announcement :=
  ⟨by decide, by decide, by decide, ⟨nofun, rfl⟩, ⟨_, _, rfl, rfl, by decide⟩, rfl⟩

end Toolkit

end Chronicle
