import Chronicle.Proofs.Store.Append

/-!
# Histories of appends

A `History` is a log together with the calls that led to it and what they gave. `History.run` makes calls one after
the other on an empty log; since an append is one step, this is also what any number of clients do, in the order in
which their appends take effect. `History.run_sound`: whatever the calls, the log has no gaps, and the documents of
each stream are those of the events that were accepted for it, in order.
-/

namespace Chronicle

/-- A call of `EventLog.append`. -/
structure AppendCall where
  stream : String
  expected : ExpectedVersion
  events : List Event

/-- A log, and the calls that led to it with what they gave. -/
structure History where
  log : EventLog
  records : List (AppendCall × Except StoreError AppendResult)

namespace History

/-- No calls. -/
def empty : History := ⟨.empty, []⟩

/-- One more call. The log changes only if it succeeds. -/
def perform (codec : Codec) (h : History) (call : AppendCall) : History :=
  match h.log.append codec call.stream call.expected call.events with
  | .ok (r, log) => ⟨log, h.records ++ [(call, .ok r)]⟩
  | .error e => ⟨h.log, h.records ++ [(call, .error e)]⟩

/-- Calls on an empty log, in the order in which they take effect. -/
def run (codec : Codec) (calls : List AppendCall) : History := calls.foldl (perform codec) empty

/-- The calls that succeeded in appending to a stream, and their results. -/
def accepted (h : History) (stream : String) : List (AppendCall × AppendResult) :=
  h.records.filterMap fun record =>
    match record with
    | (call, .ok r) => if call.stream = stream then some (call, r) else none
    | (_, .error _) => none

/-- The events that were appended to a stream, batch after batch. -/
def eventsOf (h : History) (stream : String) : List Event := (h.accepted stream).flatMap fun a => a.1.events

variable {codec : Codec} {h : History} {call : AppendCall} {r : AppendResult} {log : EventLog} {stream : String}

/-- What holds of no calls and stays true under each call, whether it succeeds or fails, holds of every history. -/
theorem run_induct {P : History → Prop} (empty : P empty)
    (ok : ∀ h call r log, P h → h.log.append codec call.stream call.expected call.events = .ok (r, log) →
      P ⟨log, h.records ++ [(call, .ok r)]⟩)
    (error : ∀ h call e, P h → h.log.append codec call.stream call.expected call.events = .error e →
      P ⟨h.log, h.records ++ [(call, .error e)]⟩) (calls : List AppendCall) : P (run codec calls) := by
  suffices ∀ h, P h → P (calls.foldl (perform codec) h) from this _ empty
  induction calls with
  | nil => exact fun _ h => h
  | cons call rest ih =>
    intro h hp
    rw [List.foldl_cons]
    refine ih _ ?_
    rw [perform]
    split
    · rename_i r log ha
      exact ok h call r log hp ha
    · rename_i e ha
      exact error h call e hp ha

theorem run_concat (codec : Codec) (calls : List AppendCall) (call : AppendCall) :
    run codec (calls ++ [call]) = (run codec calls).perform codec call := by
  rw [run, List.foldl_append]
  rfl

theorem accepted_ok (h : History) (call : AppendCall) (r : AppendResult) (log : EventLog) (stream : String) :
    accepted ⟨log, h.records ++ [(call, .ok r)]⟩ stream =
      h.accepted stream ++ if call.stream = stream then [(call, r)] else [] := by
  rw [accepted, List.filterMap_append, ← accepted]
  split
  · rename_i hs
    simp [hs]
  · rename_i hs
    simp [hs]

theorem accepted_error (h : History) (call : AppendCall) (e : StoreError) (stream : String) :
    accepted ⟨h.log, h.records ++ [(call, .error e)]⟩ stream = h.accepted stream := by
  rw [accepted, List.filterMap_append, ← accepted]
  simp

theorem eventsOf_ok (h : History) (call : AppendCall) (r : AppendResult) (log : EventLog) (stream : String) :
    eventsOf ⟨log, h.records ++ [(call, .ok r)]⟩ stream =
      h.eventsOf stream ++ if call.stream = stream then call.events else [] := by
  rw [eventsOf, accepted_ok, List.flatMap_append, ← eventsOf]
  split <;> simp

theorem eventsOf_error (h : History) (call : AppendCall) (e : StoreError) (stream : String) :
    eventsOf ⟨h.log, h.records ++ [(call, .error e)]⟩ stream = h.eventsOf stream := by
  rw [eventsOf, accepted_error, ← eventsOf]

/-! ## The log of a history -/

/-- The log has no gaps and holds just what was accepted. -/
structure Sound (codec : Codec) (h : History) : Prop where
  gapless : h.log.Gapless
  count : ∀ stream, h.log.count stream = (h.eventsOf stream).length
  stored : ∀ stream, codec.encodeAll stream 0 (h.eventsOf stream) = .ok (h.log.documentsOf stream)

theorem sound_empty : empty.Sound codec where
  gapless := EventLog.gapless_empty
  count _ := rfl
  stored _ := rfl

/-- An append that succeeds adds its batch to the end of its stream. -/
theorem Sound.append (hs : h.Sound codec)
    (ha : h.log.append codec call.stream call.expected call.events = .ok (r, log)) :
    Sound codec ⟨log, h.records ++ [(call, .ok r)]⟩ := by
  obtain ⟨batch, hb, hcount, hdocs⟩ := hs.gapless.of_append ha
  have hlen := Codec.length_encodeAll hb
  refine ⟨hs.gapless.append ha, ?_, ?_⟩
  · intro stream
    rw [eventsOf_ok, List.length_append, ← hs.count, hcount, hlen]
    split <;> rfl
  · intro stream
    rw [eventsOf_ok, hdocs]
    split
    · rename_i heq
      subst heq
      refine Codec.encodeAll_append (hs.stored _) ?_
      rw [Nat.zero_add, ← hs.count, hb]
    · rw [List.append_nil, List.append_nil, hs.stored]

/-- An append that fails changes nothing. -/
theorem Sound.refuse (hs : h.Sound codec) (call : AppendCall) (e : StoreError) :
    Sound codec ⟨h.log, h.records ++ [(call, .error e)]⟩ where
  gapless := hs.gapless
  count stream := by rw [eventsOf_error, ← hs.count]
  stored stream := by rw [eventsOf_error, hs.stored]

/-- **Histories**: whatever the calls, the log has no gaps and holds just what was accepted. -/
theorem run_sound (codec : Codec) (calls : List AppendCall) : (run codec calls).Sound codec := by
  apply run_induct sound_empty
  · intro h call r log hs ha
    exact hs.append ha
  · intro h call e hs _
    exact hs.refuse call e

theorem records_perform (codec : Codec) (h : History) (call : AppendCall) :
    (h.perform codec call).records.map Prod.fst = h.records.map Prod.fst ++ [call] := by
  rw [perform]
  split
  · rw [List.map_append]
    rfl
  · rw [List.map_append]
    rfl

/-- Each call is recorded once. -/
theorem records_run (codec : Codec) (calls : List AppendCall) : (run codec calls).records.map Prod.fst = calls := by
  suffices ∀ h : History, (calls.foldl (perform codec) h).records.map Prod.fst = h.records.map Prod.fst ++ calls from
    this empty
  induction calls with
  | nil => exact fun h => (List.append_nil _).symm
  | cons call rest ih =>
    intro h
    rw [List.foldl_cons, ih, records_perform, List.append_assoc]
    rfl

/-- What was appended came from a call. -/
theorem exists_call_of_mem_eventsOf {calls : List AppendCall} {e : Event}
    (he : e ∈ (run codec calls).eventsOf stream) : ∃ call ∈ calls, call.stream = stream ∧ e ∈ call.events := by
  obtain ⟨⟨call, r⟩, ha, he⟩ := List.mem_flatMap.1 he
  obtain ⟨⟨call', o⟩, hm, hf⟩ := List.mem_filterMap.1 ha
  have hc := List.mem_map_of_mem (f := Prod.fst) hm
  rw [records_run] at hc
  cases o with
  | error e => cases hf
  | ok r' =>
    obtain ⟨hs, hf⟩ := Option.ite_none_right_eq_some.1 hf
    cases hf
    exact ⟨call, hc, hs, he⟩

end History

end Chronicle
