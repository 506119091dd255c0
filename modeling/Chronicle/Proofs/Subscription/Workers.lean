import Chronicle.Subscription.Registry

/-!
# Workers and the registry, step by step

What a step of a worker keeps, and which workers a step of the registry touches. `Registry.Owns` says which worker is
whose. Stopping workers leaves each at its event and place (`Registry.Similar`).
-/

namespace Chronicle

namespace Worker

/-- Whose worker it is, and where it is. -/
def state (w : Worker) : String × Feed × Stage := (w.subscriber, w.feed, w.stage)

theorem subscriber_receive (codec : Codec) (item : Except StoreError Change) (w : Worker) :
    (w.receive codec item).subscriber = w.subscriber := by
  unfold receive
  split
  · rfl
  · split <;> rfl

theorem subscriber_poll (codec : Codec) (log : EventLog) (w : Worker) :
    (w.poll codec log).subscriber = w.subscriber := by
  unfold poll
  split
  · split
    · rfl
    · split
      · exact subscriber_receive codec _ _
      · rfl
      · rfl
  · rfl

theorem subscriber_settle {σ : Type} (save : String → Position → σ → Except StoreError SaveOutcome × σ)
    (verdict : Verdict) (s : σ) (w : Worker) : (w.settle save verdict s).1.subscriber = w.subscriber := by
  unfold settle
  split
  · split
    · split <;> rfl
    · rfl
    · rfl
  · rfl

theorem feed_settle {σ : Type} (save : String → Position → σ → Except StoreError SaveOutcome × σ)
    (verdict : Verdict) (s : σ) (w : Worker) : (w.settle save verdict s).1.feed = w.feed := by
  unfold settle
  split
  · split
    · split <;> rfl
    · rfl
    · rfl
  · rfl

/-- Only a worker that has an event in its hands takes an answer. -/
theorem settle_of_ne {σ : Type} (save : String → Position → σ → Except StoreError SaveOutcome × σ) (verdict : Verdict)
    (s : σ) {w : Worker} (h : ∀ event position, w.stage ≠ .handling event position) :
    w.settle save verdict s = (w, s) := by
  unfold settle
  split
  · rename_i event position hst
    exact absurd hst (h event position)
  · rfl

theorem stage_of_state {w w' : Worker} (h : w'.state = w.state) : w'.stage = w.stage :=
  congrArg (fun x => x.2.2) h

theorem isFinished_of_state {w w' : Worker} (h : w'.state = w.state) : w'.isFinished = w.isFinished := by
  rw [isFinished, isFinished, stage_of_state h]

theorem isFinished_iff {w : Worker} : w.isFinished = true ↔ ∃ outcome, w.outcome? = some outcome := by
  cases hst : w.stage with
  | _ => simp [isFinished, outcome?, hst]

/-- A worker that has finished neither goes on nor takes an answer. -/
theorem stage_of_isFinished {w : Worker} (h : w.isFinished = true) :
    w.stage ≠ .idle ∧ ∀ event position, w.stage ≠ .handling event position :=
  ⟨fun hs => by simp [isFinished, hs] at h, fun event position hs => by simp [isFinished, hs] at h⟩

/-- A worker elsewhere than between two events does not go on. -/
theorem poll_of_ne_idle (codec : Codec) (log : EventLog) {w : Worker} (h : w.stage ≠ .idle) : w.poll codec log = w := by
  unfold poll
  split
  · exact absurd ‹_› h
  · rfl

/-- A worker in front of a place of the log waits, finishes, or hands the event there to its handler. -/
theorem poll_cases (codec : Codec) (log : EventLog) {w : Worker} (hi : w.stage = .idle) {next : Nat}
    (hf : w.feed = .ofLog next) :
    w.poll codec log = w ∨ (∃ outcome, (w.poll codec log).stage = .finished outcome) ∨
      ∃ d event, log.documents[next]? = some d ∧ codec.decode d = .ok event ∧
        (w.poll codec log).stage = .handling event (EventLog.positionOf next) ∧
        (w.poll codec log).feed = .ofLog (next + 1) := by
  unfold poll
  rw [hi]
  cases w.stopped with
  | true => exact .inr (.inl ⟨_, rfl⟩)
  | false =>
    simp only [EventLog.poll, hf, EventLog.change?]
    cases hd : log.documents[next]? with
    | none => exact .inl rfl
    | some d =>
      simp only [Option.map_some, receive]
      cases he : codec.decode d with
      | error e => exact .inr (.inl ⟨_, rfl⟩)
      | ok event => exact .inr (.inr ⟨d, event, rfl, he, rfl, rfl⟩)

end Worker

namespace Registry

/-- The worker with a number is one of a subscriber's. -/
def Owns (r : Registry) (id : String) (k : Nat) (w : Worker) : Prop := r.workers[k]? = some w ∧ w.subscriber = id

variable {r r' : Registry} {id other : String} {k j : Nat} {w : Worker}

theorem getElem?_update (r : Registry) (k : Nat) (f : Worker → Worker) (j : Nat) :
    (r.update k f).workers[j]? = (r.workers[j]?).map fun w => if k = j then f w else w := by
  rw [update, List.getElem?_modify]
  rfl

/-- Workers at the same places of their feeds, with the same events. -/
def Similar (r r' : Registry) : Prop :=
  ∀ j : Nat, (r'.workers[j]?).map Worker.state = (r.workers[j]?).map Worker.state

theorem Similar.refl (r : Registry) : r.Similar r := fun _ => rfl

theorem Similar.trans {r'' : Registry} (h : r.Similar r') (h' : r'.Similar r'') : r.Similar r'' :=
  fun j => (h' j).trans (h j)

theorem similar_update_stop (r : Registry) (k : Nat) : r.Similar (r.update k .stop) := by
  intro j
  rw [getElem?_update, Option.map_map]
  refine congrArg (fun f => (r.workers[j]?).map f) (funext fun w => ?_)
  rw [Function.comp_apply]
  split <;> rfl

theorem similar_update {v v' : Worker} (hk : r.workers[k]? = some v) (hs : v'.state = v.state) :
    r.Similar (r.update k fun _ => v') := by
  intro j
  rw [getElem?_update]
  by_cases hj : k = j
  · subst hj
    rw [hk, Option.map_some, if_pos rfl, Option.map_some, hs, Option.map_some]
  · rw [Option.map_map]
    exact congrArg (fun f => (r.workers[j]?).map f) (funext fun w => by rw [Function.comp_apply, if_neg hj])

theorem similar_of_workers (h : r'.workers = r.workers) : r.Similar r' := fun j => by rw [h]

theorem similar_release (id : String) (r : Registry) : r.Similar (r.release id).2 := by
  unfold release
  split
  · have hr : r.Similar { r with registered := r.registered.erase id } := similar_of_workers rfl
    exact hr.trans (similar_update_stop _ _)
  · exact .refl r

theorem similar_abandon (r : Registry) : r.Similar r.abandon := by
  rw [abandon]
  suffices ∀ (entries : List (String × Nat)) (r' : Registry), r.Similar r' →
      r.Similar (entries.foldl (fun r e => r.update e.2 .stop) r') from this _ _ (similar_of_workers rfl)
  intro entries
  induction entries with
  | nil => exact fun _ h => h
  | cons e rest ih => exact fun r' h => ih _ (h.trans (similar_update_stop r' e.2))

theorem Similar.getElem? (h : r.Similar r') (hk : r.workers[k]? = some w) :
    ∃ w', r'.workers[k]? = some w' ∧ w'.state = w.state := by
  have hs := h k
  rw [hk, Option.map_some] at hs
  exact Option.map_eq_some_iff.1 hs

theorem Similar.map_state (h : r.Similar r') : r'.workers.map Worker.state = r.workers.map Worker.state :=
  List.ext_getElem? fun j => by simpa using h j

theorem Similar.length_eq (h : r.Similar r') : r'.workers.length = r.workers.length := by
  simpa using congrArg List.length h.map_state

theorem Similar.owns (h : r.Similar r') {w' : Worker} (ho : r'.Owns id k w') :
    ∃ w, r.Owns id k w ∧ w'.stage = w.stage ∧ w'.feed = w.feed := by
  obtain ⟨hk, hid⟩ := ho
  have hs := h k
  rw [hk, Option.map_some] at hs
  obtain ⟨w, hw, he⟩ := Option.map_eq_some_iff.1 hs.symm
  obtain ⟨hsub, hfeed, hstage⟩ : w.subscriber = w'.subscriber ∧ w.feed = w'.feed ∧ w.stage = w'.stage := by
    simpa [Worker.state] using he
  exact ⟨w, ⟨hw, hsub.trans hid⟩, hstage.symm, hfeed.symm⟩

theorem Similar.symm (h : r.Similar r') : r'.Similar r := fun j => (h j).symm

/-- A step of one subscriber's worker leaves the workers of others alone. -/
theorem owns_update_of_ne {v : Worker} (hk : r.workers[k]? = some v) (hv : v.subscriber ≠ id) {v' : Worker}
    (hv' : v'.subscriber = v.subscriber) {w : Worker} : (r.update k fun _ => v').Owns id j w ↔ r.Owns id j w := by
  rw [Owns, Owns, getElem?_update]
  by_cases hj : k = j
  · subst hj
    rw [hk, Option.map_some, if_pos rfl]
    constructor
    · rintro ⟨h, hid⟩
      cases h
      exact absurd (hv'.symm.trans hid) hv
    · rintro ⟨h, hid⟩
      cases h
      exact absurd hid hv
  · simp [hj]

/-- A step of a worker changes this worker only. -/
theorem owns_update_self {v v' : Worker} (hk : r.workers[k]? = some v) (ho : (r.update k fun _ => v').Owns id j w) :
    (j = k ∧ w = v' ∧ v'.subscriber = id) ∨ (j ≠ k ∧ r.Owns id j w) := by
  obtain ⟨hj, hid⟩ := ho
  rw [getElem?_update] at hj
  by_cases hjk : k = j
  · subst hjk
    rw [hk, Option.map_some, if_pos rfl] at hj
    cases hj
    exact .inl ⟨rfl, rfl, hid⟩
  · refine .inr ⟨Ne.symm hjk, ?_, hid⟩
    simpa [hjk] using hj

theorem Owns.lt (h : r.Owns id k w) : k < r.workers.length := (List.getElem?_eq_some_iff.1 h.1).1

theorem Owns.mem (h : r.Owns id k w) : w ∈ r.workers := List.mem_of_getElem? h.1

/-- A new worker leaves the others alone. -/
theorem Owns.append {v : Worker} (h : r.Owns id k w) (hr : r'.workers = r.workers ++ [v]) : r'.Owns id k w :=
  ⟨by rw [hr, List.getElem?_append_left h.lt, h.1], h.2⟩

theorem owns_append {v : Worker} (hr : r'.workers = r.workers ++ [v]) (h : r'.Owns id k w) :
    (k = r.workers.length ∧ w = v) ∨ r.Owns id k w := by
  obtain ⟨hk, hid⟩ := h
  rw [hr, List.getElem?_append] at hk
  split at hk
  · exact .inr ⟨hk, hid⟩
  · rename_i hlt
    obtain ⟨hi, hw⟩ := List.getElem?_eq_some_iff.1 hk
    simp only [List.length_singleton] at hi
    refine .inl ⟨by omega, ?_⟩
    simpa using hw.symm

/-- Subscribing either fails and starts no worker, or starts one, at the feed that is opened for the loaded position. -/
theorem subscribe_cases {σ : Type} (load : String → σ → Except StoreError (Option Position) × σ)
    (openFeed : StartPosition → Except StoreError Feed) (id : String) (start : StartAt) (s : σ) (r : Registry) :
    let result := r.subscribe load openFeed id start s
    (result.2.1 = s ∨ result.2.1 = (load id s).2) ∧
      ((result.1 ≠ .ok () ∧ result.2.2.workers = r.workers) ∨ ∃ saved feed, (load id s).1 = .ok saved ∧
        openFeed (start.position saved) = .ok feed ∧ result.1 = .ok () ∧
        result.2.2.workers = r.workers ++ [.start id feed]) := by
  unfold subscribe
  split
  · exact ⟨.inl rfl, .inl ⟨nofun, rfl⟩⟩
  · dsimp only
    split
    · rename_i e s' hl
      exact ⟨.inr (by rw [hl]), .inl ⟨nofun, rfl⟩⟩
    · rename_i saved s' hl
      split
      · exact ⟨.inr (by rw [hl]), .inl ⟨nofun, rfl⟩⟩
      · rename_i feed hf
        exact ⟨.inr (by rw [hl]), .inr ⟨saved, feed, by rw [hl], hf, rfl, rfl⟩⟩

end Registry

end Chronicle
