import Chronicle.Proofs.Subscription.Course
import Chronicle.Proofs.Subscription.Delivery

/-!
# Starting a subscriber again

A worker stalls in front of an event that its handler does not take. Where the next worker of the same subscriber
starts depends on whether a position is stored, and else on `StartAt` (`System.redelivery`): behind a stored position,
and at the beginning, it gets the same event again; but a subscriber that starts now, and has not saved anything yet,
goes on with what is appended after it was started again.

What carries this is that the running worker of a subscriber is where a new one would start (`System.Abreast`), as far
as that is fixed.
-/

namespace Chronicle

/-- The next position of a log can be saved behind this one: the sequence is not beyond the place that follows the one
the token names. -/
def Position.Resumable (p : Position) : Prop := ∀ i, logIndexOf p.token = .ok i → p.sequence ≤ i + 1

theorem EventLog.resumable_positionOf {place : Nat} (h : place < 0x10000000000000000) :
    (positionOf place).Resumable := by
  intro i hi
  rw [eq_of_logIndexOf_positionOf h hi]
  exact Nat.le_succ place

namespace StartAt

/-- A subscriber with this position would start at the place `n`, if that is fixed. -/
def Resumes (start : StartAt) (n : Nat) : Option Position → Prop
  | some p => p.sequence ≤ n ∧ ∀ i, logIndexOf p.token = .ok i → i + 1 = n
  | none => start = .beginning → n = 0

variable {start : StartAt} {saved : Option Position} {log : EventLog} {feed : Feed} {n : Nat}

/-- A subscriber starts where it would start again. -/
theorem exists_resumes_of_openFeed (hs : ∀ p, saved = some p → p.Resumable)
    (hf : log.openFeed (start.position saved) = .ok feed) : ∃ n, feed = .ofLog n ∧ start.Resumes n saved := by
  cases saved with
  | some p =>
    obtain ⟨i, hi, rfl⟩ := EventLog.exists_of_openFeed_after hf
    refine ⟨i + 1, rfl, hs p rfl i hi, fun j hj => ?_⟩
    rw [hi] at hj
    cases hj
    rfl
  | none =>
    cases start with
    | now =>
      cases hf
      exact ⟨log.size, rfl, nofun⟩
    | beginning =>
      cases hf
      exact ⟨0, rfl, fun _ => rfl⟩

theorem Resumes.feed_eq (h : start.Resumes n saved) (hfix : start = .beginning ∨ saved ≠ none)
    (hf : log.openFeed (start.position saved) = .ok feed) : feed = .ofLog n := by
  cases saved with
  | some p =>
    obtain ⟨i, hi, rfl⟩ := EventLog.exists_of_openFeed_after hf
    rw [h.2 i hi]
  | none =>
    obtain rfl : start = .beginning := by simpa using hfix
    cases hf
    rw [h rfl]

theorem Resumes.positionOf (hn : n < 0x10000000000000000) :
    start.Resumes (n + 1) (some (EventLog.positionOf n)) := by
  refine ⟨Nat.le_succ n, fun i hi => ?_⟩
  rw [EventLog.eq_of_logIndexOf_positionOf hn hi]

end StartAt

namespace Worker

/-- A worker is in front of the event at the place `n`, or has it in its hands, or has finished. -/
def StandsAt (codec : Codec) (log : EventLog) (n : Nat) (w : Worker) : Prop :=
  match w.stage with
  | .idle => w.feed = .ofLog n
  | .handling event position =>
    w.feed = .ofLog (n + 1) ∧ position = EventLog.positionOf n ∧ log.Decodes codec n event
  | .finished _ => True

variable {codec : Codec} {log log' : EventLog} {n : Nat} {w w' : Worker} {event : StreamEvent} {position : Position}

theorem standsAt_start (codec : Codec) (log : EventLog) (id : String) (n : Nat) :
    (start id (.ofLog n)).StandsAt codec log n := rfl

theorem StandsAt.of_handling (h : w.StandsAt codec log n) (hst : w.stage = .handling event position) :
    w.feed = .ofLog (n + 1) ∧ position = EventLog.positionOf n ∧ log.Decodes codec n event := by
  rwa [StandsAt, hst] at h

theorem StandsAt.of_state (h : w.StandsAt codec log n) (hs : w'.state = w.state) : w'.StandsAt codec log n := by
  have hfeed : w'.feed = w.feed := congrArg (fun x => x.2.1) hs
  have hst := Worker.stage_of_state hs
  rw [StandsAt, hst, hfeed]
  exact h

theorem StandsAt.mono (h : w.StandsAt codec log n) (hlog : log.documents <+: log'.documents) :
    w.StandsAt codec log' n := by
  unfold StandsAt at h ⊢
  split
  · rename_i hst
    rwa [hst] at h
  · rename_i hst
    rw [hst] at h
    exact ⟨h.1, h.2.1, h.2.2.mono hlog⟩
  · trivial

theorem StandsAt.poll (h : w.StandsAt codec log n) : (w.poll codec log).StandsAt codec log n := by
  by_cases hi : w.stage = .idle
  · have hfeed : w.feed = .ofLog n := by rwa [StandsAt, hi] at h
    rcases poll_cases codec log hi hfeed with hw | ⟨outcome, hst⟩ | ⟨d, event, hd, he, hst, hnext⟩
    · rwa [hw]
    · rw [StandsAt, hst]
      trivial
    · rw [StandsAt, hst]
      exact ⟨hnext, rfl, d, hd, he⟩
  · rwa [poll_of_ne_idle codec log hi]

end Worker

namespace System

/-- Nobody but the workers of a subscriber touches its position, and it is always subscribed with the same start, when
none of its workers is running any more. -/
def Steady (subscriber : String) (start : StartAt) (s : System) (a : Action) : Prop :=
  Untouched subscriber a ∧ ∀ again loads, a = .subscribe subscriber again loads →
    again = start ∧ ∀ w ∈ s.registry.workers, w.subscriber = subscriber → w.isFinished = true

/-- Nobody touches the position of a subscriber, and no subscription of it succeeds. -/
def Waiting (subscriber : String) (s : System) (a : Action) : Prop :=
  Untouched subscriber a ∧ ∀ start loads, a = .subscribe subscriber start loads →
    s.subscription subscriber start loads ≠ .ok ()

section

variable {store codec : Codec} {id : String} {start : StartAt} {s t : System} {j k : Nat} {w : Worker} {a : Action}
  {event : StreamEvent} {position : Position}

/-! ## The running worker -/

/-- The running worker of a subscriber is where a new one would start. -/
structure Abreast (codec : Codec) (id : String) (start : StartAt) (s : System) : Prop where
  resumable : ∀ p, s.positions.load id = some p → p.Resumable
  unique : ∀ j v k w, s.registry.Owns id j v → s.registry.Owns id k w → v.isFinished = false → w.isFinished = false →
    j = k
  running : ∀ k w, s.registry.Owns id k w → w.isFinished = false →
    ∃ n, w.StandsAt codec s.log n ∧ start.Resumes n (s.positions.load id)

theorem abreast_initial (codec : Codec) (start : StartAt) {log : EventLog} {positions : Positions}
    (h : ∀ p, positions.load id = some p → p.Resumable) : (initial log positions).Abreast codec id start := by
  have hno : ∀ k w, ¬(initial log positions).registry.Owns id k w := fun k w ho => by cases ho.1
  constructor
  case resumable => exact h
  case unique => exact fun j v _ _ ho => absurd ho (hno j v)
  case running => exact fun k w ho => absurd ho (hno k w)

/-- A worker stays where it is, unless it takes an answer. -/
theorem standsAt_act {n : Nat} (h : w.StandsAt codec s.log n) (ha : ∀ verdict saves, a = .settle k verdict saves →
    ∀ event position, w.stage ≠ .handling event position) : (act codec s k a w).StandsAt codec s.log n := by
  cases a with
  | poll j =>
    rw [act]
    split
    · exact h.poll
    · exact h
  | settle j verdict saves =>
    rw [act]
    split
    · subst j
      rwa [Worker.settle_of_ne _ _ _ (ha verdict saves rfl)]
    · exact h
  | _ => exact h

/-- A worker of the subscriber that runs after a step ran before, or it is new. -/
theorem owns_step_cases (ho : (s.step store codec a).registry.Owns id k w) :
    (∃ v, s.registry.Owns id k v ∧ w.state = (act codec s k a v).state ∧
        (w.isFinished = false → v.isFinished = false)) ∨
      (k = s.registry.workers.length ∧ ∃ start loads saved feed, a = .subscribe id start loads ∧
        s.subscription id start loads = .ok () ∧ (load loads id s.positions).1 = .ok saved ∧
        s.log.openFeed (start.position saved) = .ok feed ∧ w = .start id feed) := by
  rcases worker_step_cases ho.1 with ⟨v, hv, hs⟩ | ⟨hk, other, start, loads, saved, feed, ha, hok, hsaved, hfeed, hw⟩
  · left
    have hsub : w.subscriber = v.subscriber := (congrArg Prod.fst hs).trans (subscriber_act codec s k a v)
    refine ⟨v, ⟨hv, hsub.symm.trans ho.2⟩, hs, fun hf => ?_⟩
    cases hfin : v.isFinished with
    | false => rfl
    | true =>
      rw [Worker.isFinished_of_state hs, act_of_isFinished codec s k a hfin, hfin] at hf
      cases hf
  · right
    obtain rfl : other = id := by
      have hid := ho.2
      rwa [hw] at hid
    exact ⟨hk, start, loads, saved, feed, ha, hok, hsaved, hfeed, hw⟩

namespace Abreast

/-- An event in the hands of the subscriber's worker is the one at its place, and its position can be saved. -/
theorem handling (h : s.Abreast codec id start) (ho : s.registry.Owns id k w)
    (hst : w.stage = .handling event position) :
    ∃ n, position = EventLog.positionOf n ∧ w.feed = .ofLog (n + 1) ∧ s.log.Decodes codec n event ∧
      start.Resumes n (s.positions.load id) ∧
      (s.positions.save id position).2.load id = some (EventLog.positionOf n) := by
  obtain ⟨n, hw, hres⟩ := h.running k w ho (by simp [Worker.isFinished, hst])
  obtain ⟨hfeed, rfl, hd⟩ := hw.of_handling hst
  refine ⟨n, rfl, hfeed, hd, hres, Positions.load_save fun q hq => ?_⟩
  rw [hq] at hres
  exact hres.1

/-- The subscriber's worker takes an answer. -/
theorem running_settle (h : s.Abreast codec id start) (hsize : s.log.size ≤ 0x10000000000000000)
    (ho : s.registry.Owns id k w) (hst : w.stage = .handling event position) (verdict : Verdict) (saves : Bool)
    (hf : (w.settle (System.save saves) verdict s.positions).1.isFinished = false) :
    ∃ n, (w.settle (System.save saves) verdict s.positions).1.StandsAt codec s.log n ∧
      start.Resumes n ((w.settle (System.save saves) verdict s.positions).2.load id) := by
  obtain ⟨n, rfl, hfeed, hd, -, hload⟩ := h.handling ho hst
  rcases settle_cases hst verdict saves s.positions with ⟨-, he⟩ | ⟨-, outcome, he⟩
  · rw [he]
    refine ⟨n + 1, hfeed, ?_⟩
    rw [ho.2, hload]
    exact .positionOf (Nat.lt_of_lt_of_le hd.lt_size hsize)
  · rw [he] at hf
    cases hf

/-- While a worker of the subscriber runs, no other one saves its position. -/
theorem load_step (h : s.Abreast codec id start) (ha : Untouched id a) (store : Codec) (ho : s.registry.Owns id k w)
    (hf : w.isFinished = false)
    (hne : ∀ verdict saves, a = .settle k verdict saves → ∀ event position, w.stage ≠ .handling event position) :
    (s.step store codec a).positions.load id = s.positions.load id := by
  rcases load_step_cases ha store codec s with hl | ⟨j, verdict, saves, v, event, position, rfl, hv, hst, -⟩
  · exact hl
  · obtain rfl : j = k := h.unique j v k w hv ho (by simp [Worker.isFinished, hst]) hf
    cases hv.1.symm.trans ho.1
    exact absurd hst (hne verdict saves rfl event position)

/-- The running worker stays where a new one would start. -/
theorem running_step (h : s.Abreast codec id start) (ha : Untouched id a) (hsize : s.log.size ≤ 0x10000000000000000)
    (store : Codec) {v : Worker} (ho : s.registry.Owns id k w) (hs : v.state = (act codec s k a w).state)
    (hf : w.isFinished = false) (hf' : v.isFinished = false) :
    ∃ n, v.StandsAt codec (s.step store codec a).log n ∧
      start.Resumes n ((s.step store codec a).positions.load id) := by
  by_cases hsettle : ∃ verdict saves event position, a = .settle k verdict saves ∧ w.stage = .handling event position
  · obtain ⟨verdict, saves, event, position, rfl, hst⟩ := hsettle
    rw [act, if_pos rfl] at hs
    rw [step_settle ho.1 hst]
    obtain ⟨n, hn, hres⟩ := h.running_settle hsize ho hst verdict saves (Worker.isFinished_of_state hs ▸ hf')
    exact ⟨n, hn.of_state hs, hres⟩
  · have hne : ∀ verdict saves, a = .settle k verdict saves → ∀ event position, w.stage ≠ .handling event position :=
      fun verdict saves ha event position hst => hsettle ⟨verdict, saves, event, position, ha, hst⟩
    obtain ⟨n, hn, hres⟩ := h.running k w ho hf
    refine ⟨n, ((standsAt_act hn hne).of_state hs).mono (prefix_step store codec s a), ?_⟩
    rwa [h.load_step ha store ho hf hne]

theorem step (h : s.Abreast codec id start) (ha : Steady id start s a) (hsize : s.log.size ≤ 0x10000000000000000) :
    (s.step store codec a).Abreast codec id start := by
  have hload := load_step_cases ha.1 store codec s
  constructor
  case resumable =>
    intro p hp
    rcases hload with hl | ⟨k, verdict, saves, w, event, position, -, ho, hst, -, hps⟩
    · exact h.resumable p (hl ▸ hp)
    · obtain ⟨n, rfl, -, hd, -, hl⟩ := h.handling ho hst
      rw [hps, hl] at hp
      cases hp
      exact EventLog.resumable_positionOf (Nat.lt_of_lt_of_le hd.lt_size hsize)
  case unique =>
    intro j v k w hv hw hfv hfw
    -- a worker is started only when no other one is running
    have hold : ∀ again loads, a = .subscribe id again loads → ∀ k w, s.registry.Owns id k w →
        w.isFinished = true := fun again loads hc k w ho => (ha.2 again loads hc).2 w ho.mem ho.2
    rcases owns_step_cases hv with ⟨v', hv', -, hfv'⟩ | ⟨rfl, again, loads, -, -, hav, -⟩
    · rcases owns_step_cases hw with ⟨w', hw', -, hfw'⟩ | ⟨-, again, loads, -, -, haw, -⟩
      · exact h.unique j v' k w' hv' hw' (hfv' hfv) (hfw' hfw)
      · simp [hold again loads haw j v' hv'] at hfv'
        simp [hfv'] at hfv
    · rcases owns_step_cases hw with ⟨w', hw', -, hfw'⟩ | ⟨rfl, -⟩
      · simp [hold again loads hav k w' hw'] at hfw'
        simp [hfw'] at hfw
      · rfl
  case running =>
    intro k w ho hf
    rcases owns_step_cases ho with ⟨v, hv, hs, hfv⟩ | ⟨-, again, loads, saved, feed, rfl, -, hsaved, hfeed, rfl⟩
    · exact h.running_step ha.1 hsize store hv hs (hfv hf) hf
    · obtain ⟨rfl, -⟩ := ha.2 again loads rfl
      have hl : (s.step store codec (.subscribe id again loads)).positions.load id = s.positions.load id :=
        hload.resolve_right fun ⟨_, _, _, _, _, _, hc, _⟩ => by cases hc
      cases loads with
      | false => cases hsaved
      | true =>
        cases hsaved
        obtain ⟨n, rfl, hres⟩ := StartAt.exists_resumes_of_openFeed h.resumable hfeed
        exact ⟨n, Worker.standsAt_start codec _ id n, hl ▸ hres⟩

theorem run {first : System} (h : first.Abreast codec id start)
    (hr : Reachable store codec (Steady id start) first s) (hsize : s.log.size ≤ 0x10000000000000000) :
    s.Abreast codec id start := by
  induction hr with
  | first => exact h
  | step a _ ha ih =>
    have hle := Nat.le_trans (size_le_step store codec _ a) hsize
    exact (ih hle).step ha hle

end Abreast

/-! ## A stalled subscriber -/

/-- No worker of the subscriber is running, and its position is `saved`. -/
structure Stalled (id : String) (saved : Option Position) (s : System) : Prop where
  finished : ∀ k w, s.registry.Owns id k w → w.isFinished = true
  load_eq : s.positions.load id = saved

/-- An event that is not saved stalls the subscriber. -/
theorem Abreast.stalled (h : s.Abreast codec id start) (store : Codec) (ho : s.registry.Owns id k w)
    (hst : w.stage = .handling event position) {verdict : Verdict} {saves : Bool}
    (hfail : markOf verdict saves ≠ .saved) :
    (s.step store codec (.settle k verdict saves)).Stalled id (s.positions.load id) := by
  obtain ⟨-, outcome, he⟩ := (settle_cases hst verdict saves s.positions).resolve_left fun h => hfail h.1
  constructor
  case finished =>
    intro j v' hv'
    rcases owns_step_cases hv' with ⟨v, hv, hs, hfv⟩ | ⟨-, start', loads, saved, feed, ha, -⟩
    · refine Bool.of_not_eq_false fun hf => ?_
      obtain rfl : k = j := h.unique k w j v ho hv (by simp [Worker.isFinished, hst]) (hfv hf)
      cases ho.1.symm.trans hv.1
      rw [act, if_pos rfl, he] at hs
      rw [Worker.isFinished_of_state hs] at hf
      cases hf
    · cases ha
  case load_eq => rw [step_settle ho.1 hst, he]

namespace Stalled

variable {saved : Option Position}

theorem step (h : s.Stalled id saved) (ha : Waiting id s a) (store codec : Codec) :
    (s.step store codec a).Stalled id saved := by
  constructor
  case finished =>
    intro k w hw
    rcases owns_step_cases hw with ⟨v, hv, -, hfv⟩ | ⟨-, start', loads, -, -, hc, hok, -⟩
    · refine Bool.of_not_eq_false fun hf => ?_
      have hfin := h.finished k v hv
      rw [hfv hf] at hfin
      cases hfin
    · exact absurd hok (ha.2 start' loads hc)
  case load_eq =>
    rcases load_step_cases ha.1 store codec s with
      hl | ⟨k, -, -, w, event, position, -, ho, hst, -⟩
    · exact hl.trans h.load_eq
    · have hfin := h.finished k w ho
      simp [Worker.isFinished, hst] at hfin

theorem run (h : s.Stalled id saved) (hr : Reachable store codec (Waiting id) s t) : t.Stalled id saved := by
  induction hr with
  | first => exact h
  | step a _ ha ih => exact ih.step ha store codec

end Stalled

/-! ## The next worker -/

/-- Whatever happens from now on, the first event that a worker hands over is `event` at `place`; it does so as soon as
it goes on, unless it is told to stop. -/
structure Redelivers (store codec : Codec) (k place : Nat) (event : StreamEvent) (s : System) : Prop where
  /-- The worker is about to go on. -/
  ready : s.route k = [] ∧ ∃ w, s.registry.workers[k]? = some w ∧ w.stage = .idle ∧ w.stopped = false
  next : ∀ t w, Reachable store codec Any s t → t.registry.workers[k]? = some w → w.stage = .idle →
    w.stopped = false → t.route k = [] → (t.step store codec (.poll k)).route k = [(place, event)]
  first : ∀ t, Reachable store codec Any s t → ∀ x ∈ (t.route k).head?, x = (place, event)

/-- Whatever happens from now on, a worker hands over only events behind `place`. -/
def Skips (store codec : Codec) (k place : Nat) (s : System) : Prop :=
  ∀ t, Reachable store codec Any s t → ∀ x ∈ t.route k, place < x.1

/-- A worker that was started at a place hands over the event there first. -/
theorem OnCourse.redelivers {n : Nat} (h : s.OnCourse codec k n) (store : Codec) (hd : s.log.Decodes codec n event)
    (hready : s.route k = [] ∧ ∃ w, s.registry.workers[k]? = some w ∧ w.stage = .idle ∧ w.stopped = false) :
    s.Redelivers store codec k n event where
  ready := hready
  next _ _ hr hk hi hs hroute := (h.run hr).route_poll_of_route_eq_nil hroute hk hi hs (hd.mono hr.prefix)
  first _ hr := (h.run hr).eq_of_mem_head? (hd.mono hr.prefix)

/-- **Restart**: the handler of a subscriber fails on an event, or the position of the event cannot be saved. Whatever
happens until the subscriber is started again with the same start: if it starts at the beginning or has a stored
position, the new worker gets this event first. If it starts now and has none, the new worker goes on behind the
event. -/
theorem redelivery {log : EventLog} {positions : Positions} {verdict : Verdict} {saves loads : Bool}
    (hres : ∀ p, positions.load id = some p → p.Resumable)
    (hr : Reachable store codec (Steady id start) (initial log positions) s) (ho : s.registry.Owns id k w)
    (hst : w.stage = .handling event position) (hfail : markOf verdict saves ≠ .saved)
    (hw : Reachable store codec (Waiting id) (s.step store codec (.settle k verdict saves)) t)
    (hok : t.subscription id start loads = .ok ()) (hsize : t.log.size ≤ 0x10000000000000000) :
    (start = .beginning ∨ s.positions.load id ≠ none →
        (t.step store codec (.subscribe id start loads)).Redelivers store codec t.registry.workers.length
          position.sequence event) ∧
      (start = .now → s.positions.load id = none →
        (t.step store codec (.subscribe id start loads)).Skips store codec t.registry.workers.length
          position.sequence) := by
  have hlog : s.log.documents <+: t.log.documents := (prefix_step store codec s _).trans hw.prefix
  have habreast := (abreast_initial codec start hres).run hr (Nat.le_trans hlog.length_le hsize)
  obtain ⟨n, rfl, -, hd, hresumes, -⟩ := habreast.handling ho hst
  have hstalled := (habreast.stalled store ho hst hfail).run hw
  -- the new worker, and its empty route
  obtain ⟨feed, hfeed, hworkers⟩ := exists_of_subscription hok store codec
  rw [hstalled.load_eq] at hfeed
  have hnew : (t.step store codec (.subscribe id start loads)).registry.workers[t.registry.workers.length]? =
      some (.start id feed) := by
    rw [hworkers, List.getElem?_concat_length]
  have hroute : (t.step store codec (.subscribe id start loads)).route t.registry.workers.length = [] := by
    show t.route _ = []
    exact route_of_length_le ((hr.any.step _ trivial).trans hw.any) (Nat.le_refl _)
  constructor
  · intro hfix
    obtain rfl := hresumes.feed_eq hfix hfeed
    exact (OnCourse.of_route_eq_nil hnew rfl hroute).redelivers store (hd.mono hlog) ⟨hroute, _, hnew, rfl, rfl⟩
  · rintro rfl hnone v hv x hx
    rw [hnone] at hfeed
    cases hfeed
    have hle := ((OnCourse.of_route_eq_nil hnew rfl hroute).run hv).le_of_mem x hx
    exact Nat.lt_of_lt_of_le hd.lt_size (Nat.le_trans hlog.length_le hle)

end

/-! A subscriber that starts now, and stalls. -/

/-- A codec with one text, which stands for one event. -/
def blanks : Codec := ⟨⟨fun _ => .ok "\x7b\x7d".toUTF8, fun _ => .ok note⟩, .rfc3339String⟩

/-- One more event. -/
def appendNote : Action := .append ⟨"s", .any, [note]⟩

/-- The handler has the first event. -/
def firstNote : List Action := [.subscribe "a" .now true, appendNote, .poll 0]

/-- The first event was saved, and the handler has the second one. -/
def secondNote : List Action := firstNote ++ [.settle 0 .success true, appendNote, .poll 0]

/-- The worker with the event at a place. -/
def handlerAt (place : Nat) : Worker :=
  ⟨"a", .ofLog (place + 1), false, .handling ⟨"s", place, note⟩ (EventLog.positionOf place)⟩

/-- What some steps make of nothing. -/
def after (actions : List Action) : System := actions.foldl (step blanks blanks) (initial .empty .empty)

/-- The handler has failed since, and there is one more event. -/
def afterFailure (actions : List Action) : System := after (actions ++ [.settle 0 (.failure "no") true, appendNote])

theorem reachable_firstNote :
    Reachable blanks blanks (Steady "a" .now) (initial .empty .empty) (after firstNote) := by
  have h0 : Reachable blanks blanks (Steady "a" .now) (initial .empty .empty) (initial .empty .empty) := .first
  have h1 := h0.step (.subscribe "a" .now true) ⟨trivial, fun again loads h => by cases h; exact ⟨rfl, by decide⟩⟩
  exact (h1.step appendNote ⟨trivial, fun _ _ h => by cases h⟩).step (.poll 0) ⟨trivial, fun _ _ h => by cases h⟩

theorem waiting_appendNote (s : System) : Waiting "a" s appendNote := ⟨trivial, fun _ _ h => by cases h⟩

theorem redelivery_secondNote :
    ((∀ p, Positions.empty.load "a" = some p → p.Resumable) ∧
        Reachable blanks blanks (Steady "a" .now) (initial .empty .empty) (after secondNote) ∧
        (after secondNote).registry.Owns "a" 0 (handlerAt 1) ∧
        Reachable blanks blanks (Waiting "a")
          ((after secondNote).step blanks blanks (.settle 0 (.failure "no") true)) (afterFailure secondNote) ∧
        (afterFailure secondNote).subscription "a" .now true = .ok () ∧
        (afterFailure secondNote).log.size ≤ 0x10000000000000000) ∧
      ((afterFailure secondNote).step blanks blanks (.subscribe "a" .now true)).Redelivers blanks blanks 1 1
        ⟨"s", 1, note⟩ := by
  have hres : ∀ p, Positions.empty.load "a" = some p → p.Resumable := fun p h => by cases h
  have h1 := reachable_firstNote.step (.settle 0 .success true) ⟨trivial, fun _ _ h => by cases h⟩
  have hr : Reachable blanks blanks (Steady "a" .now) (initial .empty .empty) (after secondNote) :=
    (h1.step appendNote ⟨trivial, fun _ _ h => by cases h⟩).step (.poll 0) ⟨trivial, fun _ _ h => by cases h⟩
  have ho : (after secondNote).registry.Owns "a" 0 (handlerAt 1) := ⟨by with_unfolding_all rfl, rfl⟩
  have hw : Reachable blanks blanks (Waiting "a")
      ((after secondNote).step blanks blanks (.settle 0 (.failure "no") true)) (afterFailure secondNote) :=
    Reachable.first.step appendNote (waiting_appendNote _)
  have hok : (afterFailure secondNote).subscription "a" .now true = .ok () := by with_unfolding_all rfl
  have hsize : (afterFailure secondNote).log.size ≤ 0x10000000000000000 := by
    have hthree : (afterFailure secondNote).log.size = 3 := by with_unfolding_all rfl
    rw [hthree]
    decide
  have hstored : (after secondNote).positions.load "a" = some (EventLog.positionOf 0) := by with_unfolding_all rfl
  have hlength : (afterFailure secondNote).registry.workers.length = 1 := by with_unfolding_all rfl
  have h := (redelivery hres hr ho rfl (by decide) hw hok hsize).1 (.inr (by simp [hstored]))
  rw [hlength] at h
  exact ⟨⟨hres, hr, ho, hw, hok, hsize⟩, h⟩

/-- Without a stored position, a subscriber that starts now is not handed the event again on which its handler
failed. -/
theorem firstNote_skipped :
    (Reachable blanks blanks (Steady "a" .now) (initial .empty .empty) (after firstNote) ∧
        (after firstNote).registry.Owns "a" 0 (handlerAt 0) ∧
        Reachable blanks blanks (Waiting "a")
          ((after firstNote).step blanks blanks (.settle 0 (.failure "no") true)) (afterFailure firstNote) ∧
        (afterFailure firstNote).subscription "a" .now true = .ok ()) ∧
      ¬((afterFailure firstNote).step blanks blanks (.subscribe "a" .now true)).Redelivers blanks blanks 1 0
        ⟨"s", 0, note⟩ := by
  refine ⟨⟨reachable_firstNote, ⟨by with_unfolding_all rfl, rfl⟩, ?_, by with_unfolding_all rfl⟩, fun h => ?_⟩
  · exact Reachable.first.step appendNote (waiting_appendNote _)
  have hv : Reachable blanks blanks Any
      ((afterFailure firstNote).step blanks blanks (.subscribe "a" .now true))
      (after (firstNote ++ [.settle 0 (.failure "no") true, appendNote] ++
        [.subscribe "a" .now true, appendNote, .poll 1])) :=
    (Reachable.first.step appendNote trivial).step (.poll 1) trivial
  have hroute : (after (firstNote ++ [.settle 0 (.failure "no") true, appendNote] ++
      [.subscribe "a" .now true, appendNote, .poll 1])).route 1 = [(2, ⟨"s", 2, note⟩)] := by with_unfolding_all rfl
  have hfirst := h.first _ hv (2, ⟨"s", 2, note⟩) (congrArg List.head? hroute)
  simp at hfirst

end System

end Chronicle
