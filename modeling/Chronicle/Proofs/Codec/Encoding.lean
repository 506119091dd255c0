import Chronicle.Codec.Basic
import Chronicle.Proofs.Except

/-!
# The steps of encoding

`Codec.encode` checks the payload, looks at the time, writes the event, reads the text as a document, and puts the
stream's fields and a date into it. `Codec.encode_eq` says this as a chain of steps, and `Codec.encode_eq_ok_iff` when
and with which document it succeeds.
-/

namespace Chronicle.Codec

/-- A document with the version of its event, if there is one. -/
def versioned (d : Document) : Option Nat → Except EncodingError Document
  | none => .ok d
  | some v =>
    match Bson.int64OfNat? v with
    | some n => .ok (Fields.set streamVersionField n d)
    | none => .error (.versionOutOfRange v)

/-- A document with its time as a date, if there is one. -/
def dated (d : Document) : Option Int64 → Document
  | some millis => Fields.set timeField (.date millis) d
  | none => d

variable {c : Codec} {e : Event} {stream : String} {version : Option Nat} {d : Document}

theorem encode_eq (c : Codec) (e : Event) (stream : String) (version : Option Nat) :
    c.encode e stream version = ((checkPayload e.contentType e.payload).mapError .mismatchedPayload >>= fun _ =>
      c.dateOf e >>= fun date => (c.format.serialize e).mapError .format >>= fun bytes =>
      documentOfText bytes >>= fun fields =>
      versioned (Fields.set streamIdField (.string stream) fields) version >>= fun d => .ok (dated d date)) := by
  rw [encode]
  cases checkPayload e.contentType e.payload with
  | error problem => rfl
  | ok _ =>
    cases c.dateOf e with
    | error problem => rfl
    | ok date =>
      cases c.format.serialize e with
      | error problem => rfl
      | ok bytes =>
        simp only [Except.ok_bind, Except.mapError_ok]
        cases documentOfText bytes with
        | error problem => rfl
        | ok fields =>
          cases version with
          | none => cases date <;> rfl
          | some v =>
            simp only [versioned]
            cases Bson.int64OfNat? v with
            | none => rfl
            | some n => cases date <;> rfl

theorem versioned_some_eq_ok_iff {v : Nat} {d' : Document} :
    versioned d (some v) = .ok d' ↔
      v ≤ 0x7FFFFFFFFFFFFFFF ∧ d' = Fields.set streamVersionField (.int64 (Int64.ofNat v)) d := by
  by_cases hv : v < 0x8000000000000000
  · simp only [versioned, Bson.int64OfNat?, if_pos hv, Except.ok.injEq]
    exact ⟨fun h => ⟨Nat.le_of_lt_succ hv, h.symm⟩, fun h => h.2.symm⟩
  · simp only [versioned, Bson.int64OfNat?, if_neg hv]
    exact ⟨fun h => (by cases h), fun h => absurd (Nat.lt_succ_of_le h.1) hv⟩

/-- Encoding succeeds just if each of its steps does. -/
theorem encode_eq_ok_iff :
    c.encode e stream version = .ok d ↔
      checkPayload e.contentType e.payload = .ok () ∧
        ∃ date bytes fields d', c.dateOf e = .ok date ∧ c.format.serialize e = .ok bytes ∧
          documentOfText bytes = .ok fields ∧
          versioned (Fields.set streamIdField (.string stream) fields) version = .ok d' ∧ d = dated d' date := by
  simp only [encode_eq, Except.bind_eq_ok_iff, Except.mapError_eq_ok_iff, Except.ok.injEq]
  constructor
  · rintro ⟨_, hp, date, hd, bytes, hb, fields, hf, d', hv, rfl⟩
    exact ⟨hp, date, bytes, fields, d', hd, hb, hf, hv, rfl⟩
  · rintro ⟨hp, date, bytes, fields, d', hd, hb, hf, hv, rfl⟩
    exact ⟨(), hp, date, hd, bytes, hb, fields, hf, d', hv, rfl⟩

/-- A version that was encoded is a signed 64-bit integer. -/
theorem version_le_of_encode {v : Nat} (h : c.encode e stream (some v) = .ok d) : v ≤ 0x7FFFFFFFFFFFFFFF := by
  obtain ⟨-, date, bytes, fields, d', -, -, -, hv, -⟩ := encode_eq_ok_iff.1 h
  exact (versioned_some_eq_ok_iff.1 hv).1

end Chronicle.Codec
