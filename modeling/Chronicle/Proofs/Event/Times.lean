import Chronicle.Proofs.Event.Envelope
import Chronicle.Proofs.Time.Order

/-!
# Envelopes in order of time

The envelope of an event has the RFC 3339 text of its time, with all nine digits of the second, as a string under `time`
(`timeText?_of_time`). So a store that sorts envelopes by this string sorts events of one offset by their time
(`times_in_order`).
-/

namespace Chronicle.Event

open Fields (get?)

/-- The string under `time` in the envelope of an event, the object that `serialize` writes as text. -/
def timeText? (e : Event) : Option String :=
  match e.toJson with
  | .object ms =>
    match get? "time" ms with
    | some (.string text) => some text
    | _ => none
  | _ => none

variable {a b : Event} {s t : Timestamp}

/-- An extension with another name leaves the time in its place. -/
theorem timeText?_of_time (h : a.time = some t) (hx : a.extensions.get? "time" = none) :
    a.timeText? = some (t.rfc3339 .nanos) := by
  have hnot : "time" ∉ Fields.names (extensionMembers a.extensions.entries) := by
    rw [extensionMembers, Fields.names_map, ← Fields.get?_eq_none_iff, ← NameMap.get?_eq]
    exact hx
  have hget := Fields.get?_foldl_set_of_not_mem hnot a.attributes
  rw [get?_time_attributes, h, extensionMembers, List.foldl_map] at hget
  simp only [timeText?, toJson, hget, Option.map_some]

/-- **Order of times**: the envelopes of two events with times of one offset have texts of one length for them, and
these texts are in the order of the times. -/
theorem times_in_order (ha : a.time = some s) (hb : b.time = some t) (hxa : a.extensions.get? "time" = none)
    (hxb : b.extensions.get? "time" = none) (hs : s.Writable) (ht : t.Writable) (ho : s.offset = t.offset) :
    ∃ x y, a.timeText? = some x ∧ b.timeText? = some y ∧ x.length = y.length ∧
      (x < y ↔ s.Before t) ∧ (x = y ↔ s = t) := by
  refine ⟨_, _, timeText?_of_time ha hxa, timeText?_of_time hb hxb, ?_, ?_, ?_⟩
  · rw [Timestamp.length_rfc3339_eq hs, Timestamp.length_rfc3339_eq ht, ho]
  · exact Timestamp.rfc3339_lt_iff hs ht ho trivial trivial
  · exact Timestamp.rfc3339_inj hs ht trivial trivial

/-- An event of a meter at some time. -/
def metered (t : Timestamp) : Event where
  id := "e1"
  source := "/meters/4"
  type := "meter.read"
  time := some t
  subject := none
  contentType := none
  payload := none
  extensions := .ofList [("tenant", .string "x")]

/-- The middle of a leap second, which is the last second of 1969 on this clock, east of UTC. -/
def leapInstant : Timestamp := ⟨-19801, 1500000000, 19800, by decide, by decide, by decide⟩

/-- An instant in the second after it, which is the first one of 1970. -/
def afterLeap : Timestamp := ⟨-19800, 250, 19800, by decide, by decide, by decide⟩

theorem times_in_order_afterLeap :
    ((metered leapInstant).extensions.get? "time" = none ∧ (metered afterLeap).extensions.get? "time" = none ∧
      leapInstant.Writable ∧ afterLeap.Writable ∧ leapInstant.offset = afterLeap.offset) ∧
    ∃ x y, (metered leapInstant).timeText? = some x ∧ (metered afterLeap).timeText? = some y ∧
      x.length = y.length ∧ x < y := by
  have hx : ∀ t, (metered t).extensions.get? "time" = none := fun _ => rfl
  have hs : leapInstant.Writable := ⟨by decide, by decide, by decide, by decide⟩
  have ht : afterLeap.Writable := ⟨by decide, by decide, by decide, by decide⟩
  obtain ⟨x, y, hleap, hnew, hl, hlt, -⟩ :=
    times_in_order (a := metered leapInstant) (b := metered afterLeap) rfl rfl (hx _) (hx _) hs ht rfl
  exact ⟨⟨hx _, hx _, hs, ht, rfl⟩, x, y, hleap, hnew, hl, hlt.2 (.inl (by decide))⟩

/-- The leap second is shown as second 60. -/
example : (metered leapInstant).timeText? = some "1969-12-31T23:59:60.500000000+05:30" ∧
    (metered afterLeap).timeText? = some "1970-01-01T00:00:00.000000250+05:30" := by decide +kernel

end Chronicle.Event
