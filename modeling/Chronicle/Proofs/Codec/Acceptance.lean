import Chronicle.Proofs.Bson.Unsigned
import Chronicle.Proofs.Codec.Encoding
import Chronicle.Proofs.Codec.Payloads
import Chronicle.Proofs.Codec.Times

/-!
# Which events are encoded

Five conditions decide whether an event is encoded (`Codec.Accepts`), and the first of them that does not hold decides
about the error (`Codec.Refusal`). Nothing else in an envelope can go wrong: its text is always read, unless the payload
nests too deep, and what is read can always be stored, unless the payload has an unsigned integer. In particular doubles
do no harm, although some are not read as what they were (`Json.readWithin_write_eq`).

Every event is accepted or refused (`Codec.accepts_or_refusal`), and encoding does what that says (`Accepts.encode_eq`,
`Refusal.encode_eq`); so it does nothing else (`Codec.encode_outcome`).
-/

namespace Chronicle

namespace Event

/-- The first integer of a JSON payload that only an unsigned type holds. -/
def firstUnsigned? (e : Event) : Option Nat :=
  match e.payload with
  | some (.json v) => v.firstUnsigned?
  | _ => none

/-- The time of an event, if it has one, is one that encoding does not refuse. -/
def TimePasses (times : TimeRepresentation) (e : Event) : Prop := ∀ t, e.time = some t → times.Passes t

/-- A JSON payload, if it is one, whose names are distinct in each object. -/
def PayloadWellFormed (e : Event) : Prop := ∀ v, e.payload = some (.json v) → v.WellFormed

/-- The integers of a JSON payload, at any depth, are signed 64-bit integers. -/
def PayloadSigned (e : Event) : Prop :=
  ∀ v, e.payload = some (.json v) → ∀ n, .integer n ∈ v.parts → n.val ≤ 0x7FFFFFFFFFFFFFFF

variable {e : Event}

theorem firstUnsigned?_eq_none_iff : e.firstUnsigned? = none ↔ e.PayloadSigned := by
  have hlt (n : Int) : n < 0x8000000000000000 ↔ n ≤ 0x7FFFFFFFFFFFFFFF := by omega
  unfold firstUnsigned? PayloadSigned
  split
  · rename_i v hv
    rw [Json.firstUnsigned?_eq_none_iff]
    simp only [hv, hlt, Option.some.injEq, Payload.json.injEq, forall_eq']
  · rename_i hp
    exact iff_of_true rfl fun v hv => absurd hv (hp v)

/-! ## The envelope -/

theorem wellFormed_members (ha : e.Admitted) (hw : e.PayloadWellFormed) : (Json.object e.members).WellFormed := by
  refine ⟨ha.apart.distinct, Json.wellFormedMembers_iff.2 fun m hm => ?_⟩
  rcases mem_members hm with ⟨s, hs⟩ | ⟨x, hx⟩ | hp
  · rw [hs]
    trivial
  · rw [hx]
    cases x <;> trivial
  · exact hw m.2 hp

theorem firstUnsigned?_extensionToJson (x : Extension) : (extensionToJson x).firstUnsigned? = none := by
  have hk : Json.Kept 0 (extensionToJson x) := .extension x
  exact Json.firstUnsigned?_eq_none_iff.2 hk.plain.integers

/-- Only the payload can have an unsigned integer. -/
theorem firstUnsigned?_members (e : Event) : (Json.object e.members).firstUnsigned? = e.firstUnsigned? := by
  have hoptional (name : String) (o : Option String) :
      (optionalMember name o).findSome? (fun m => m.2.firstUnsigned?) = none := by
    cases o <;> rfl
  have hextensions : (extensionMembers e.extensions.entries).findSome? (fun m => m.2.firstUnsigned?) = none := by
    rw [extensionMembers, List.findSome?_map]
    exact List.findSome?_eq_none_iff.2 fun x _ => firstUnsigned?_extensionToJson x.2
  have hpayload : (payloadMember e.payload).findSome? (fun m => m.2.firstUnsigned?) = e.firstUnsigned? := by
    unfold firstUnsigned?
    cases e.payload with
    | none => rfl
    | some p =>
      cases p with
      | json v => exact List.findSome?_singleton
      | text s => rfl
      | binary bytes => rfl
  rw [Json.firstUnsigned?_object, members, attributes]
  simp only [List.findSome?_append, hoptional, hextensions, hpayload, Option.or_none]
  rfl

end Event

namespace Codec

variable {times : TimeRepresentation} {e : Event} {stream : String} {version : Option Nat} {problem : EncodingError}

/-! ## The document of an envelope -/

/-- What is read from an envelope: the members as they come back, or that the payload nests too deep. -/
theorem read_serialize (ha : e.Admitted) (hw : e.PayloadWellFormed) [Decidable (e.PayloadWithin 126)] :
    Json.read (Text.symbols e.serialize.toUTF8) =
      if e.PayloadWithin 126 then .ok (.object (Json.rereadMembers e.members)) else .error .tooDeep := by
  rw [Event.serialize, Event.toJson_eq ha.apart, Json.read_text_eq (Event.wellFormed_members ha hw)]
  simp only [Event.depth_members_le_iff e 126]
  rfl

theorem documentOfText_of_not_within (ha : e.Admitted) (hw : e.PayloadWellFormed) (hd : ¬e.PayloadWithin 126) :
    documentOfText e.serialize.toUTF8 = .error (.unreadableText .tooDeep) := by
  classical
  rw [documentOfText, read_serialize ha hw, if_neg hd]

theorem documentOfText_of_within (ha : e.Admitted) (hw : e.PayloadWellFormed) (hd : e.PayloadWithin 126) :
    documentOfText e.serialize.toUTF8 =
      (Bson.ofJsonMembers (Json.rereadMembers e.members)).mapError .unsignedInteger := by
  classical
  rw [documentOfText, read_serialize ha hw, if_pos hd]
  dsimp only
  rw [Bson.ofJson]
  cases hm : Bson.ofJsonMembers (Json.rereadMembers e.members) with
  | error n => rfl
  | ok fields =>
    have hplain : ∀ m ∈ Json.rereadMembers e.members, Json.PlainKey m.1 := by
      rw [Json.rereadMembers_eq, List.forall_mem_map]
      exact fun m hmem => show Json.PlainKey m.1 from ha.plainKey hmem
    rw [Except.ok_bind, Bson.ofDocument_of_plainKeys hplain hm]
    rfl

/-- The first unsigned integer of the payload is the one that keeps an envelope from being stored. -/
theorem ofJsonMembers_eq_error_iff {n : Nat} :
    Bson.ofJsonMembers (Json.rereadMembers e.members) = .error n ↔ e.firstUnsigned? = some n := by
  rw [Bson.ofJsonMembers_eq_error_iff fun m _ => Bson.blames m.2, ← Json.firstUnsigned?_object,
    ← Event.firstUnsigned?_members, ← Json.firstUnsigned?_reread (.object e.members), Json.reread]

/-! ## The conditions -/

/-- The conditions under which an event is encoded, in the order in which encoding comes upon them. -/
structure Accepts (times : TimeRepresentation) (e : Event) (version : Option Nat) : Prop where
  payload : checkPayload e.contentType e.payload = .ok ()
  time : e.TimePasses times
  depth : e.PayloadWithin 126
  integers : e.PayloadSigned
  version : ∀ v, version = some v → v ≤ 0x7FFFFFFFFFFFFFFF

/-- The error for the first condition that does not hold. -/
inductive Refusal (times : TimeRepresentation) (e : Event) (version : Option Nat) : EncodingError → Prop where
  | payload {problem : EventError} (h : checkPayload e.contentType e.payload = .error problem) :
      Refusal times e version (.mismatchedPayload problem)
  | precision {t : Timestamp} (hp : checkPayload e.contentType e.payload = .ok ()) (hd : times = .nativeDate)
      (ht : e.time = some t) (h : t.nanos % 1000000 ≠ 0) : Refusal times e version (.subMillisecondPrecision t)
  | offset {t : Timestamp} (hp : checkPayload e.contentType e.payload = .ok ()) (hd : times = .nativeDate)
      (ht : e.time = some t) (hn : t.nanos % 1000000 = 0) (h : t.offset ≠ 0) :
      Refusal times e version (.nonUtcTimestamp t)
  | depth (hp : checkPayload e.contentType e.payload = .ok ()) (ht : e.TimePasses times) (h : ¬e.PayloadWithin 126) :
      Refusal times e version (.unreadableText .tooDeep)
  | integer {n : Nat} (hp : checkPayload e.contentType e.payload = .ok ()) (ht : e.TimePasses times)
      (hd : e.PayloadWithin 126) (h : e.firstUnsigned? = some n) : Refusal times e version (.unsignedInteger n)
  | version {v : Nat} (hp : checkPayload e.contentType e.payload = .ok ()) (ht : e.TimePasses times)
      (hd : e.PayloadWithin 126) (hi : e.PayloadSigned) (hv : version = some v) (h : 0x7FFFFFFFFFFFFFFF < v) :
      Refusal times e version (.versionOutOfRange v)

/-- Every event meets the conditions or fails one of them first. -/
theorem accepts_or_refusal (times : TimeRepresentation) (e : Event) (version : Option Nat) :
    Accepts times e version ∨ ∃ problem, Refusal times e version problem := by
  cases hp : checkPayload e.contentType e.payload with
  | error problem => exact .inr ⟨_, .payload hp⟩
  | ok _ =>
  by_cases ht : e.TimePasses times
  · by_cases hd : e.PayloadWithin 126
    · cases hf : e.firstUnsigned? with
      | some n => exact .inr ⟨_, .integer hp ht hd hf⟩
      | none =>
        have hi := Event.firstUnsigned?_eq_none_iff.1 hf
        by_cases hv : ∀ v, version = some v → v ≤ 0x7FFFFFFFFFFFFFFF
        · exact .inl ⟨hp, ht, hd, hi, hv⟩
        · simp only [not_forall, not_le, exists_prop] at hv
          obtain ⟨v, hv, hlt⟩ := hv
          exact .inr ⟨_, .version hp ht hd hi hv hlt⟩
    · exact .inr ⟨_, .depth hp ht hd⟩
  · unfold Event.TimePasses at ht
    simp only [not_forall, exists_prop] at ht
    obtain ⟨t, hte, ht⟩ := ht
    cases times with
    | rfc3339String => exact absurd trivial ht
    | nativeDate =>
      by_cases hn : t.nanos % 1000000 = 0
      · exact .inr ⟨_, .offset hp rfl hte hn fun ho => ht ⟨ho, hn⟩⟩
      · exact .inr ⟨_, .precision hp rfl hte hn⟩

/-! ## Encoding -/

/-- With a payload and a time that pass, the text of the envelope decides. -/
theorem encode_of_passes (hp : checkPayload e.contentType e.payload = .ok ()) (ht : e.TimePasses times)
    (stream : String) (version : Option Nat) :
    ∃ date, (json times).encode e stream version = documentOfText e.serialize.toUTF8 >>= fun fields =>
      versioned (Fields.set streamIdField (.string stream) fields) version >>= fun d => .ok (dated d date) := by
  have hdate : ∃ date, (json times).dateOf e = .ok date := by
    cases hte : e.time with
    | none => exact ⟨none, dateOf_of_no_time times hte⟩
    | some t => exact (exists_dateOf_iff hte).2 (ht t hte)
  obtain ⟨date, hdate⟩ := hdate
  refine ⟨date, ?_⟩
  rw [encode_eq, hp, hdate]
  rfl

theorem exists_versioned (h : ∀ v, version = some v → v ≤ 0x7FFFFFFFFFFFFFFF) (d : Document) :
    ∃ d', versioned d version = .ok d' := by
  cases version with
  | none => exact ⟨d, rfl⟩
  | some v => exact ⟨_, versioned_some_eq_ok_iff.2 ⟨h v rfl, rfl⟩⟩

theorem versioned_of_lt {v : Nat} (h : 0x7FFFFFFFFFFFFFFF < v) (d : Document) :
    versioned d (some v) = .error (.versionOutOfRange v) := by
  rw [versioned, Bson.int64OfNat?, if_neg (by omega)]

theorem exists_fields (hi : e.PayloadSigned) :
    ∃ fields, Bson.ofJsonMembers (Json.rereadMembers e.members) = .ok fields := by
  cases hm : Bson.ofJsonMembers (Json.rereadMembers e.members) with
  | ok fields => exact ⟨fields, rfl⟩
  | error n =>
    rw [ofJsonMembers_eq_error_iff, Event.firstUnsigned?_eq_none_iff.2 hi] at hm
    cases hm

section

variable (hn : ∀ x ∈ e.extensions.entries, checkExtensionName x.1 = .ok ()) (hw : e.PayloadWellFormed)
include hn hw

theorem Accepts.encode_eq (h : Accepts times e version) (stream : String) :
    ∃ d, (json times).encode e stream version = .ok d := by
  obtain ⟨date, he⟩ := encode_of_passes h.payload h.time stream version
  obtain ⟨fields, hf⟩ := exists_fields h.integers
  obtain ⟨d, hd⟩ := exists_versioned h.version (Fields.set streamIdField (.string stream) fields)
  refine ⟨dated d date, ?_⟩
  rw [he, documentOfText_of_within ⟨hn, h.payload⟩ hw h.depth, hf, Except.mapError_ok, Except.ok_bind, hd]
  rfl

theorem Refusal.encode_eq (h : Refusal times e version problem) (stream : String) :
    (json times).encode e stream version = .error problem := by
  cases h with
  | payload h =>
    rw [Codec.encode_eq, h]
    rfl
  | precision hp hd ht h =>
    subst hd
    rw [Codec.encode_eq, hp, dateOf_date ht, nativeDate, if_pos h]
    rfl
  | offset hp hd ht hnanos h =>
    subst hd
    rw [Codec.encode_eq, hp, dateOf_date ht, nativeDate, if_neg (not_not_intro hnanos), if_pos h]
    rfl
  | depth hp ht h =>
    obtain ⟨date, he⟩ := encode_of_passes hp ht stream version
    rw [he, documentOfText_of_not_within ⟨hn, hp⟩ hw h]
    rfl
  | integer hp ht hd h =>
    obtain ⟨date, he⟩ := encode_of_passes hp ht stream version
    rw [he, documentOfText_of_within ⟨hn, hp⟩ hw hd, ofJsonMembers_eq_error_iff.2 h]
    rfl
  | version hp ht hd hi hv h =>
    obtain ⟨date, he⟩ := encode_of_passes hp ht stream version
    obtain ⟨fields, hf⟩ := exists_fields hi
    rw [he, documentOfText_of_within ⟨hn, hp⟩ hw hd, hf, Except.mapError_ok, Except.ok_bind, hv, versioned_of_lt h]
    rfl

/-- **Encoding**: an event whose extensions have proper names is encoded just if it meets the conditions; otherwise
encoding fails with the error for the first condition that does not hold, and with no other. -/
theorem encode_outcome (times : TimeRepresentation) (stream : String) (version : Option Nat) :
    ((∃ d, (json times).encode e stream version = .ok d) ↔ Accepts times e version) ∧
      ∀ problem, (json times).encode e stream version = .error problem ↔ Refusal times e version problem := by
  rcases accepts_or_refusal times e version with ha | ⟨problem, hr⟩
  · obtain ⟨d, hd⟩ := ha.encode_eq hn hw stream
    refine ⟨iff_of_true ⟨d, hd⟩ ha, fun problem => ?_⟩
    constructor
    · intro h
      rw [hd] at h
      cases h
    · exact fun hr => hr.encode_eq hn hw stream
  · have he := hr.encode_eq hn hw stream
    constructor
    · constructor
      · rintro ⟨d, hd⟩
        rw [he] at hd
        cases hd
      · exact fun ha => ha.encode_eq hn hw stream
    · intro problem'
      rw [he, Except.error.injEq]
      constructor
      · rintro rfl
        exact hr
      · intro hr'
        have he' := hr'.encode_eq hn hw stream
        rw [he] at he'
        exact Except.error.inj he'

end

/-- A reading that a signed integer cannot hold. -/
def excess : Json := .object [("kWh", .integer ⟨0x8000000000000000, by norm_num, by norm_num⟩)]

theorem wellFormed_excess : (eventOf excess).PayloadWellFormed := by
  intro v hv
  cases hv
  simp [excess, Json.WellFormed, Json.WellFormedMembers, Fields.Distinct, Fields.names]

theorem encode_outcome_excess :
    (∀ x ∈ (eventOf excess).extensions.entries, checkExtensionName x.1 = .ok ()) ∧ (eventOf excess).PayloadWellFormed ∧
      (json .nativeDate).encode (eventOf excess) "meter-4" (some 12) = .error (.unsignedInteger 0x8000000000000000) := by
  have hn : ∀ x ∈ (eventOf excess).extensions.entries, checkExtensionName x.1 = .ok () := List.forall_mem_nil _
  have hdepth : (eventOf excess).PayloadWithin 126 := by
    intro v hv
    cases hv
    decide
  have htime : (eventOf excess).TimePasses .nativeDate := fun t ht => by cases ht
  exact ⟨hn, wellFormed_excess, ((encode_outcome hn wellFormed_excess .nativeDate "meter-4" (some 12)).2 _).2
    (.integer rfl htime hdepth rfl)⟩

end Codec

end Chronicle
