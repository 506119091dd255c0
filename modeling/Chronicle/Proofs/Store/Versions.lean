import Chronicle.Proofs.Store.History
import Mathlib.Data.List.Nodup
import Mathlib.Logic.ExistsUnique

/-!
# Who gets which version

In every history the batches that a stream accepted have ranges of versions that lie one behind the other from zero
on. So a version is given once, and of the calls that expect one and the same version, or no stream, one at most can
succeed with a batch that is not empty (`History.run_serial`).
-/

namespace Chronicle

/-- The versions that an append has given to its batch: those behind the old version, up to the new one. -/
def AppendResult.versions (r : AppendResult) : List Nat :=
  match r.newVersion with
  | none => []
  | some last => List.range' (versionAfter r.oldVersion) (last + 1 - versionAfter r.oldVersion)

theorem AppendResult.versions_lastVersion (stream : String) (current : Option Nat) (count : Nat) :
    versions ⟨stream, current, lastVersion (versionAfter current) count current⟩ =
      List.range' (versionAfter current) count := by
  cases count with
  | zero =>
    rw [lastVersion_zero]
    cases current with
    | none => rfl
    | some v =>
      have hl : v + 1 - versionAfter (some v) = 0 := Nat.sub_self _
      simp only [versions, hl]
  | succ count =>
    rw [lastVersion_of_pos (Nat.succ_pos count)]
    have hl : versionAfter current + (count + 1) - 1 + 1 - versionAfter current = count + 1 := by omega
    simp only [versions, hl]

namespace History

variable {codec : Codec} {h : History} {call : AppendCall} {r : AppendResult} {log : EventLog} {stream : String}

/-- The appends to a stream that succeeded with events in them, in the order in which they succeeded. -/
def wins (h : History) (stream : String) : List (AppendCall × AppendResult) :=
  (h.accepted stream).filter fun a => !a.1.events.isEmpty

/-- The versions of a stream that were given, each with the event that got it. -/
def slots (h : History) (stream : String) : List (Nat × Event) :=
  (h.wins stream).flatMap fun a => a.2.versions.zip a.1.events

theorem range_append_range' (m n : Nat) : List.range m ++ List.range' m n = List.range (m + n) := by
  have h := @List.range'_append_1 0 m n
  rw [Nat.zero_add] at h
  rw [List.range_eq_range', List.range_eq_range', h]

/-- An accepted call found the stream as it expected, and got as many versions as it has events. -/
def Fits (a : AppendCall × AppendResult) : Prop :=
  a.1.expected.Admits a.2.oldVersion ∧
    a.2.versions = List.range' (versionAfter a.2.oldVersion) a.1.events.length

/-- The ranges of the accepted calls lie one behind the other. -/
structure Tiled (h : History) (stream : String) : Prop where
  fits : ∀ a ∈ h.accepted stream, Fits a
  tile : ((h.accepted stream).flatMap fun a => a.2.versions) = List.range (h.eventsOf stream).length

/-- A successful append gets the versions behind the last one. -/
theorem Sound.versions_eq (hs : h.Sound codec)
    (ha : h.log.append codec call.stream call.expected call.events = .ok (r, log)) :
    Fits (call, r) ∧ r.versions = List.range' (h.eventsOf call.stream).length call.events.length := by
  obtain ⟨-, hadm, batch, hb, rfl, -⟩ := (EventLog.append_eq_ok_iff hs.gapless).1 ha
  have hv := AppendResult.versions_lastVersion call.stream (h.log.version call.stream) batch.length
  rw [hs.gapless.versionAfter, Codec.length_encodeAll hb] at hv
  rw [Codec.length_encodeAll hb]
  refine ⟨⟨hadm, ?_⟩, ?_⟩
  · rw [hs.gapless.versionAfter]
    exact hv
  · rw [← hs.count]
    exact hv

theorem run_tiled (codec : Codec) (calls : List AppendCall) (stream : String) :
    (run codec calls).Tiled stream := by
  suffices (run codec calls).Sound codec ∧ (run codec calls).Tiled stream from this.2
  refine run_induct (P := fun h => h.Sound codec ∧ h.Tiled stream) ⟨sound_empty, ?_⟩ ?_ ?_ calls
  · exact ⟨fun a ha => (by cases ha), rfl⟩
  · rintro h call r log ⟨hs, ht⟩ ha
    obtain ⟨hf, hv⟩ := hs.versions_eq ha
    refine ⟨hs.append ha, ?_, ?_⟩
    · intro a hm
      rw [accepted_ok] at hm
      rcases List.mem_append.1 hm with hm | hm
      · exact ht.fits a hm
      · split at hm
        · cases List.mem_singleton.1 hm
          exact hf
        · cases hm
    · rw [accepted_ok, eventsOf_ok, List.flatMap_append, ht.tile]
      by_cases hc : call.stream = stream
      · subst hc
        rw [if_pos rfl, if_pos rfl, List.flatMap_singleton, hv, List.length_append, range_append_range']
      · rw [if_neg hc, if_neg hc, List.flatMap_nil, List.append_nil, List.append_nil]
  · rintro h call e ⟨hs, ht⟩ -
    refine ⟨hs.refuse call e, ?_, ?_⟩
    · rw [accepted_error]
      exact ht.fits
    · rw [accepted_error, eventsOf_error, ht.tile]

/-! ## Ranges and slots -/

theorem flatMap_filter {α β : Type} {p : α → Bool} {f : α → List β} {xs : List α}
    (h : ∀ a ∈ xs, p a = false → f a = []) : (xs.filter p).flatMap f = xs.flatMap f := by
  induction xs with
  | nil => rfl
  | cons a xs ih =>
    obtain ⟨ha, h⟩ := List.forall_mem_cons.1 h
    cases hp : p a with
    | true => rw [List.filter_cons_of_pos hp, List.flatMap_cons, List.flatMap_cons, ih h]
    | false => rw [List.filter_cons_of_neg (by simp [hp]), List.flatMap_cons, ha hp, List.nil_append, ih h]

theorem Tiled.flatMap_wins (ht : h.Tiled stream) :
    ((h.wins stream).flatMap fun a => a.2.versions) = List.range (h.eventsOf stream).length := by
  rw [wins, flatMap_filter, ht.tile]
  intro a ha he
  have hnil : a.1.events = [] := by simpa using he
  rw [(ht.fits a ha).2, hnil]
  rfl

theorem flatMap_events_wins (h : History) (stream : String) :
    ((h.wins stream).flatMap fun a => a.1.events) = h.eventsOf stream := by
  rw [wins, flatMap_filter, eventsOf]
  intro a _ he
  simpa using he

theorem Tiled.fits_of_mem_wins (ht : h.Tiled stream) {a : AppendCall × AppendResult} (ha : a ∈ h.wins stream) :
    Fits a ∧ a.1.events ≠ [] := by
  obtain ⟨ha, hne⟩ := List.mem_filter.1 ha
  exact ⟨ht.fits a ha, by simpa using hne⟩

/-- The first version of a range that is not empty is the one behind the old version. -/
theorem Fits.mem_versions {a : AppendCall × AppendResult} (h : Fits a) (hne : a.1.events ≠ []) :
    versionAfter a.2.oldVersion ∈ a.2.versions := by
  rw [h.2, List.mem_range'_1]
  exact ⟨Nat.le_refl _, Nat.lt_add_of_pos_right (List.length_pos_iff.2 hne)⟩

theorem mem_versions_of_wins (ht : h.Tiled stream) {a : AppendCall × AppendResult} (ha : a ∈ h.wins stream) :
    versionAfter a.2.oldVersion ∈ a.2.versions :=
  (ht.fits_of_mem_wins ha).1.mem_versions (ht.fits_of_mem_wins ha).2

/-- No version is in two ranges. -/
theorem Tiled.pairwise_wins (ht : h.Tiled stream) :
    (h.wins stream).Pairwise fun a b => ∀ v ∈ a.2.versions, v ∉ b.2.versions := by
  have hn : ((h.wins stream).flatMap fun a => a.2.versions).Nodup := ht.flatMap_wins ▸ List.nodup_range
  refine (List.pairwise_flatMap.1 hn).2.imp fun hab v ha hb => ?_
  exact hab v ha v hb rfl

/-- Of results that have a version in common and share none with each other there is one at most. -/
theorem length_filter_le_one_of_pairwise {l : List (AppendCall × AppendResult)}
    (hpw : l.Pairwise fun a b => ∀ v ∈ a.2.versions, v ∉ b.2.versions) (p : AppendCall × AppendResult → Bool) {v : Nat}
    (hp : ∀ a ∈ l, p a = true → v ∈ a.2.versions) : (l.filter p).length ≤ 1 := by
  have hm : ∀ a ∈ l.filter p, v ∈ a.2.versions := fun a ha => hp a (List.mem_filter.1 ha).1 (List.mem_filter.1 ha).2
  have hpw := hpw.filter p
  generalize l.filter p = l at hpw hm
  match l with
  | [] => exact Nat.zero_le 1
  | [_] => exact Nat.le_refl 1
  | a :: b :: _ =>
    have hab := (List.pairwise_cons.1 hpw).1 b List.mem_cons_self
    exact absurd (hm b (List.mem_cons_of_mem _ List.mem_cons_self)) (hab v (hm a List.mem_cons_self))

/-- Of calls whose ranges would start at the same version, one succeeds at most. -/
theorem Tiled.length_filter_le_one (ht : h.Tiled stream) (p : AppendCall × AppendResult → Bool) {v : Nat}
    (hp : ∀ a ∈ h.wins stream, p a = true → versionAfter a.2.oldVersion = v) :
    ((h.wins stream).filter p).length ≤ 1 :=
  length_filter_le_one_of_pairwise ht.pairwise_wins p fun a ha hpa => hp a ha hpa ▸ mem_versions_of_wins ht ha

/-- Each slot holds the version and the event at one place of the stream. -/
theorem Tiled.slots (ht : h.Tiled stream) :
    (h.slots stream).map Prod.fst = List.range (h.eventsOf stream).length ∧
      (h.slots stream).map Prod.snd = h.eventsOf stream := by
  have hl : ∀ a ∈ h.wins stream, a.2.versions.length = a.1.events.length := by
    intro a ha
    rw [(ht.fits_of_mem_wins ha).1.2, List.length_range']
  constructor
  · rw [History.slots, List.map_flatMap, ← ht.flatMap_wins]
    exact List.flatMap_congr fun a ha => List.map_fst_zip (Nat.le_of_eq (hl a ha))
  · rw [History.slots, List.map_flatMap, ← flatMap_events_wins]
    exact List.flatMap_congr fun a ha => List.map_snd_zip (Nat.le_of_eq (hl a ha).symm)

/-! ## One writer after the other -/

/-- What writers can rely on: versions of a stream are given in order, once each, and to one call of those that race.
-/
structure Serial (h : History) (stream : String) : Prop where
  /-- The ranges of the appends that brought events, in the order in which they succeeded, tile the versions. -/
  tile : ((h.wins stream).flatMap fun a => a.2.versions) = List.range (h.eventsOf stream).length
  /-- Each range has a version for each event of its batch, from the one behind the old version on. -/
  range : ∀ a ∈ h.wins stream, a.2.versions = List.range' (versionAfter a.2.oldVersion) a.1.events.length
  disjoint : (h.wins stream).Pairwise fun a b => ∀ v ∈ a.2.versions, v ∉ b.2.versions
  /-- Each version is given to exactly one event. -/
  slot : ∀ v < (h.eventsOf stream).length, ∃! e, (v, e) ∈ h.slots stream
  slots_eq : (h.slots stream).map Prod.fst = List.range (h.eventsOf stream).length
  noStream : ((h.wins stream).filter fun a => a.1.expected = .noStream).length ≤ 1
  exact_version : ∀ v, ((h.wins stream).filter fun a => a.1.expected = .exact v).length ≤ 1
  /-- A call that does not succeed blames another writer, the stream id or an event. -/
  refused : ∀ call e, (call, .error e) ∈ h.records →
    e = .emptyStreamId ∨ e = .conflict call.stream call.expected ∨ ∃ problem, e = .encoding problem

theorem run_refused (codec : Codec) (calls : List AppendCall) (call : AppendCall) (e : StoreError)
    (hm : (call, .error e) ∈ (run codec calls).records) :
    e = .emptyStreamId ∨ e = .conflict call.stream call.expected ∨ ∃ problem, e = .encoding problem := by
  refine run_induct (P := fun h => ∀ call e, (call, .error e) ∈ h.records →
    e = .emptyStreamId ∨ e = .conflict call.stream call.expected ∨ ∃ problem, e = .encoding problem)
    (fun _ _ hm => by cases hm) ?_ ?_ calls call e hm
  · intro h call r log ih _ call' e' hm
    rcases List.mem_append.1 hm with hm | hm
    · exact ih call' e' hm
    · cases List.mem_singleton.1 hm
  · intro h call e ih ha call' e' hm
    rcases List.mem_append.1 hm with hm | hm
    · exact ih call' e' hm
    · cases List.mem_singleton.1 hm
      exact EventLog.error_of_append ha

/-- **Races**: in every history the versions of each stream are given in order and once each, and of the calls that
expect no stream, or the same version, at most one brings events in. -/
theorem run_serial (codec : Codec) (calls : List AppendCall) (stream : String) : (run codec calls).Serial stream := by
  have ht := run_tiled codec calls stream
  obtain ⟨hfst, -⟩ := ht.slots
  refine ⟨ht.flatMap_wins, fun a ha => (ht.fits_of_mem_wins ha).1.2, ht.pairwise_wins, ?_, hfst, ?_, ?_,
    run_refused codec calls⟩
  · intro v hv
    obtain ⟨⟨_, e⟩, hm, rfl⟩ := List.mem_map.1 (hfst ▸ List.mem_range.2 hv)
    refine ⟨e, hm, fun e' hm' => ?_⟩
    have hn : ((run codec calls).slots stream |>.map Prod.fst).Nodup := hfst ▸ List.nodup_range
    cases List.inj_on_of_nodup_map hn hm' hm rfl
    rfl
  · refine ht.length_filter_le_one _ (v := 0) fun a ha hp => ?_
    have hadm := (ht.fits_of_mem_wins ha).1.1
    rw [of_decide_eq_true hp] at hadm
    rw [show a.2.oldVersion = none from hadm]
    rfl
  · intro v
    refine ht.length_filter_le_one _ (v := v + 1) fun a ha hp => ?_
    have hadm := (ht.fits_of_mem_wins ha).1.1
    rw [of_decide_eq_true hp] at hadm
    rw [show a.2.oldVersion = some v from hadm]
    rfl

end History

end Chronicle
