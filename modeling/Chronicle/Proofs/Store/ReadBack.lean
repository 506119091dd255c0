import Chronicle.Proofs.Codec.RoundTrip
import Chronicle.Proofs.Store.History

/-!
# Streams are read as they were written

If all events that a stream accepted are storable, a read gives them back in the order in which they were appended,
each with its place in the stream, and the version of the last one (`History.read_run`).
-/

namespace Chronicle

namespace Codec

variable {times : TimeRepresentation} {stream : String}

theorem decodeAll_cons {c : Codec} {d : Document} {ds : List Document} {e : StreamEvent} {es : List StreamEvent}
    (hd : c.decode d = .ok e) (hds : c.decodeAll ds = .ok es) : c.decodeAll (d :: ds) = .ok (e :: es) := by
  rw [decodeAll, hd, hds]
  rfl

/-- The documents of a batch of storable events are decoded as the events, at consecutive versions. -/
theorem decodeAll_encodeAll {es : List Event} (h : ∀ e ∈ es, e.Storable times ∧ e.DoublesReadBack) {first : Nat}
    {ds : List Document} (hds : (json times).encodeAll stream first es = .ok ds) :
    (json times).decodeAll ds = .ok (es.mapIdx fun i e => ⟨stream, first + i, e⟩) := by
  induction es generalizing first ds with
  | nil =>
    cases hds
    rfl
  | cons e es ih =>
    obtain ⟨⟨he, hx⟩, h⟩ := List.forall_mem_cons.1 h
    obtain ⟨d, rest, hd, hr, rfl⟩ := encodeAll_cons_eq_ok_iff.1 hds
    rw [decodeAll_cons (decode_of_encode he hx hd) (ih h hr), List.mapIdx_cons]
    simp [Nat.add_comm, Nat.add_left_comm]

/-- A batch of storable events can be encoded. -/
theorem exists_encodeAll {es : List Event} (h : ∀ e ∈ es, e.Storable times ∧ e.DoublesReadBack) (stream : String)
    {first : Nat} (hl : first + es.length ≤ 0x8000000000000000) :
    ∃ ds, (json times).encodeAll stream first es = .ok ds := by
  induction es generalizing first with
  | nil => exact ⟨[], rfl⟩
  | cons e es ih =>
    obtain ⟨⟨he, hx⟩, h⟩ := List.forall_mem_cons.1 h
    rw [List.length_cons] at hl
    obtain ⟨d, hd⟩ := exists_encode he hx stream (show first ≤ 0x7FFFFFFFFFFFFFFF by omega)
    obtain ⟨ds, hds⟩ := ih h (show first + 1 + es.length ≤ 0x8000000000000000 by omega)
    exact ⟨d :: ds, encodeAll_cons_eq_ok_iff.2 ⟨d, ds, hd, hds, rfl⟩⟩

end Codec

namespace History

variable {times : TimeRepresentation} {calls : List AppendCall} {stream : String}

/-- **Reading back**: after any calls, a stream whose accepted events are storable is read as these events, in the
order of their batches and at the versions from zero on, with the version of the last one. -/
theorem read_run (hs : stream ≠ "")
    (he : ∀ e ∈ (run (.json times) calls).eventsOf stream, e.Storable times ∧ e.DoublesReadBack) :
    EventLog.read (.json times) stream (run (.json times) calls).log (run (.json times) calls).log =
      .ok {
        stream
        version :=
          let count := ((run (.json times) calls).eventsOf stream).length
          if count = 0 then none else some (count - 1)
        events := ((run (.json times) calls).eventsOf stream).mapIdx fun i e => ⟨stream, i, e⟩ } := by
  have hsound := run_sound (.json times) calls
  have hdec := Codec.decodeAll_encodeAll he (hsound.stored stream)
  have hev : ((Codec.json times).decodeAll ((run (.json times) calls).log.slice stream 0 none)).mapError
      StoreError.decoding = .ok (((run (.json times) calls).eventsOf stream).mapIdx fun i e => ⟨stream, i, e⟩) := by
    rw [Except.mapError_eq_ok_iff]
    simpa [EventLog.documentsOf] using hdec
  rw [EventLog.read, EventLog.readSlice, EventLog.checkStreamId_eq_ok_iff.2 hs, Except.ok_bind, hev, Except.ok_bind,
    hsound.gapless.version, hsound.count]
  rfl

/-- A batch of storable events is accepted, if the stream is as expected and has room for it. -/
theorem eventsOf_run_concat {call : AppendCall} (hne : call.stream ≠ "")
    (ha : call.expected.Admits ((run (.json times) calls).log.version call.stream))
    (he : ∀ e ∈ call.events, e.Storable times ∧ e.DoublesReadBack)
    (hl : ((run (.json times) calls).eventsOf call.stream).length + call.events.length ≤ 0x8000000000000000) :
    (run (.json times) (calls ++ [call])).eventsOf call.stream =
      (run (.json times) calls).eventsOf call.stream ++ call.events := by
  have hs := run_sound (.json times) calls
  rw [← hs.count] at hl
  obtain ⟨ds, hds⟩ := Codec.exists_encodeAll he call.stream hl
  have hok := (EventLog.append_eq_ok_iff hs.gapless).2 ⟨hne, ha, ds, hds, rfl, rfl⟩
  rw [run_concat, perform, hok]
  exact (eventsOf_ok ..).trans (by rw [if_pos rfl])

/-- A first batch. -/
def opening : AppendCall := ⟨"meter-4", .noStream, [Codec.reading]⟩

/-- A second batch for the same stream. -/
def following : AppendCall := ⟨"meter-4", .exact 0, [Codec.reading, Codec.reading]⟩

theorem storable_reading {call : AppendCall} (hc : call ∈ [opening, following]) {e : Event} (he : e ∈ call.events) :
    e.Storable .rfc3339String ∧ e.DoublesReadBack := by
  have hr : e = Codec.reading := by
    simp only [List.mem_cons, List.not_mem_nil, or_false] at hc
    rcases hc with rfl | rfl
    · simpa [opening] using he
    · simpa [following] using he
  exact hr ▸ ⟨Codec.storable_reading, Codec.doublesReadBack_reading⟩

theorem eventsOf_readings :
    (run (.json .rfc3339String) [opening, following]).eventsOf "meter-4" =
      [Codec.reading, Codec.reading, Codec.reading] := by
  have h1 : (run (.json .rfc3339String) ([] ++ [opening])).eventsOf following.stream = [Codec.reading] :=
    eventsOf_run_concat (by decide) rfl (fun e he => storable_reading List.mem_cons_self he) (by decide)
  have hs := run_sound (.json .rfc3339String) ([] ++ [opening])
  have hv := hs.gapless.version following.stream
  rw [hs.count, h1] at hv
  have h2 := eventsOf_run_concat (show following.stream ≠ "" by decide) hv
    (fun e he => storable_reading (List.mem_cons_of_mem _ List.mem_cons_self) he) (by rw [h1]; decide)
  rw [h1] at h2
  exact h2

theorem read_run_readings :
    (run (.json .rfc3339String) [opening, following]).eventsOf "meter-4" =
        [Codec.reading, Codec.reading, Codec.reading] ∧
      EventLog.read (.json .rfc3339String) "meter-4" (run (.json .rfc3339String) [opening, following]).log
          (run (.json .rfc3339String) [opening, following]).log =
        .ok ⟨"meter-4", some 2, [⟨"meter-4", 0, Codec.reading⟩, ⟨"meter-4", 1, Codec.reading⟩,
          ⟨"meter-4", 2, Codec.reading⟩]⟩ := by
  have he : ∀ e ∈ (run (.json .rfc3339String) [opening, following]).eventsOf "meter-4",
      e.Storable .rfc3339String ∧ e.DoublesReadBack := by
    intro e he
    obtain ⟨call, hc, -, he⟩ := exists_call_of_mem_eventsOf he
    exact storable_reading hc he
  have h := read_run (show "meter-4" ≠ "" by decide) he
  rw [eventsOf_readings] at h
  exact ⟨eventsOf_readings, h⟩

end History

end Chronicle
