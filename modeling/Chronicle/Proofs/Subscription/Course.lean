import Chronicle.Proofs.Subscription.Steps

/-!
# The course of a worker

Whatever else happens, what a worker hands over is the log, event after event, from the place on at which it was
started (`System.OnCourse`).
-/

namespace Chronicle

theorem EventLog.Decodes.unique {codec : Codec} {log : EventLog} {place : Nat} {event event' : StreamEvent}
    (h : log.Decodes codec place event) (h' : log.Decodes codec place event') : event = event' := by
  obtain ⟨d, hd, he⟩ := h
  obtain ⟨d', hd', he'⟩ := h'
  rw [hd] at hd'
  cases hd'
  rw [he] at he'
  exact Except.ok.inj he'

/-- A worker in front of an event hands it over, if it has not been told to stop. -/
theorem Worker.poll_of_decodes {codec : Codec} {log : EventLog} {w : Worker} {place : Nat} {event : StreamEvent}
    (hi : w.stage = .idle) (hs : w.stopped = false) (hf : w.feed = .ofLog place)
    (hd : log.Decodes codec place event) :
    (w.poll codec log).stage = .handling event (EventLog.positionOf place) := by
  obtain ⟨d, hd, he⟩ := hd
  simp [poll, hi, hs, EventLog.poll, hf, EventLog.change?, hd, receive, he]

namespace System

/-- A worker that was started at the place `first` has handed over the events from there on, one after the other, and
goes on with the next one. -/
structure OnCourse (codec : Codec) (k first : Nat) (s : System) : Prop where
  worker : ∃ w, s.registry.workers[k]? = some w ∧
    (w.isFinished = false → w.feed = .ofLog (first + (s.route k).length))
  places : (s.route k).map Prod.fst = List.range' first (s.route k).length
  decoded : ∀ x ∈ s.route k, s.log.Decodes codec x.1 x.2

namespace OnCourse

variable {store codec : Codec} {Allowed : System → Action → Prop} {s t : System} {k first : Nat} {w : Worker}
  {event : StreamEvent}

/-- A worker at the beginning of its course. -/
theorem of_route_eq_nil (hk : s.registry.workers[k]? = some w) (hf : w.feed = .ofLog first) (hr : s.route k = []) :
    s.OnCourse codec k first where
  worker := ⟨w, hk, fun _ => by simp [hr, hf]⟩
  places := by simp [hr]
  decoded := by simp [hr]

theorem of_route_eq {a : Action} (h : s.OnCourse codec k first)
    (hroute : (s.step store codec a).route k = s.route k)
    (hw : ∃ w, (s.step store codec a).registry.workers[k]? = some w ∧
      (w.isFinished = false → w.feed = .ofLog (first + (s.route k).length))) :
    (s.step store codec a).OnCourse codec k first where
  worker := by rwa [hroute]
  places := by rw [hroute, h.places]
  decoded := fun x hx => (h.decoded x (hroute ▸ hx)).mono (prefix_step store codec s a)

/-- The worker goes to its next event. -/
theorem poll (h : s.OnCourse codec k first) : (s.step store codec (.poll k)).OnCourse codec k first := by
  obtain ⟨w, hk, hfeed⟩ := h.worker
  obtain ⟨w', hk', hs⟩ := exists_worker_step hk store codec (.poll k)
  have hroute := route_poll hk store codec
  rw [act, if_pos rfl] at hs
  have hfin := Worker.isFinished_of_state hs
  have hfeed' : w'.feed = (w.poll codec s.log).feed := congrArg (fun x => x.2.1) hs
  by_cases hi : w.stage = .idle
  · have hw := hfeed (by simp [Worker.isFinished, hi])
    rcases Worker.poll_cases codec s.log hi hw with hp | ⟨outcome, hp⟩ | ⟨d, event, hd, he, hst, hnext⟩
    · -- it waits
      rw [hp] at hroute hfeed'
      rw [handover_eq_nil (.inr fun event position hc => by simp [hi] at hc)] at hroute
      exact h.of_route_eq (by simpa using hroute) ⟨w', hk', fun _ => hfeed'.trans hw⟩
    · -- it finishes
      rw [handover_eq_nil (.inr fun event position hc => by simp [hp] at hc)] at hroute
      refine h.of_route_eq (by simpa using hroute) ⟨w', hk', fun hf => ?_⟩
      rw [hfin] at hf
      simp [Worker.isFinished, hp] at hf
    · -- it hands the event over
      have hover : (handover k w (w.poll codec s.log)).map (fun h => (h.place, h.event)) =
          [(first + (s.route k).length, event)] := by
        rw [handover, hi, hst]
        rfl
      rw [hover] at hroute
      have hlen : ((s.step store codec (.poll k)).route k).length = (s.route k).length + 1 := by simp [hroute]
      constructor
      case worker => exact ⟨w', hk', fun _ => by rw [hlen, hfeed', hnext, Nat.add_assoc]⟩
      case places =>
        rw [hlen, hroute, List.map_append, h.places, List.range'_concat, Nat.one_mul]
        rfl
      case decoded =>
        intro x hx
        rw [hroute] at hx
        refine EventLog.Decodes.mono ?_ (prefix_step store codec s _)
        rcases List.mem_append.1 hx with hx | hx
        · exact h.decoded x hx
        · cases List.mem_singleton.1 hx
          exact ⟨d, hd, he⟩
  · have hp := Worker.poll_of_ne_idle codec s.log hi
    rw [handover_eq_nil (.inl hi)] at hroute
    rw [hp] at hfeed' hfin
    exact h.of_route_eq (by simpa using hroute) ⟨w', hk', fun hf => hfeed'.trans (hfeed (hfin ▸ hf))⟩

theorem step (h : s.OnCourse codec k first) (store : Codec) (a : Action) :
    (s.step store codec a).OnCourse codec k first := by
  by_cases ha : a = .poll k
  · exact ha ▸ h.poll
  · obtain ⟨w, hk, hfeed⟩ := h.worker
    obtain ⟨w', hk', hs⟩ := exists_worker_step hk store codec a
    have hfeed' : w'.feed = w.feed := (congrArg (fun x => x.2.1) hs).trans (feed_act ha codec s w)
    refine h.of_route_eq (route_step ha store codec s) ⟨w', hk', fun hf => hfeed'.trans (hfeed ?_)⟩
    cases hw : w.isFinished with
    | false => rfl
    | true =>
      -- a worker that has finished would still be finished
      rw [Worker.isFinished_of_state hs, act_of_isFinished codec s k a hw, hw] at hf
      cases hf

theorem run (h : s.OnCourse codec k first) (hr : Reachable store codec Allowed s t) : t.OnCourse codec k first := by
  induction hr with
  | first => exact h
  | step a _ _ ih => exact ih.step store a

/-- The first event that the worker hands over is the one at the place where it was started. -/
theorem eq_of_mem_head? (h : s.OnCourse codec k first) (hd : s.log.Decodes codec first event) :
    ∀ x ∈ (s.route k).head?, x = (first, event) := by
  intro x hx
  have hplaces := h.places
  cases hroute : s.route k with
  | nil => simp [hroute] at hx
  | cons y rest =>
    rw [hroute] at hx hplaces
    cases hx
    have hx : x.1 = first := by simpa [List.range'_succ] using congrArg List.head? hplaces
    have he := h.decoded x (by simp [hroute])
    rw [hx] at he
    exact Prod.ext hx (he.unique hd)

/-- It hands over nothing before that. -/
theorem le_of_mem (h : s.OnCourse codec k first) : ∀ x ∈ s.route k, first ≤ x.1 := by
  intro x hx
  have hmem : x.1 ∈ (s.route k).map Prod.fst := List.mem_map_of_mem hx
  rw [h.places, List.mem_range'_1] at hmem
  exact hmem.1

/-- Where it was started, the worker hands over the event if it waits there and has not been told to stop. -/
theorem route_poll_of_route_eq_nil (h : s.OnCourse codec k first) (hr : s.route k = [])
    (hk : s.registry.workers[k]? = some w) (hi : w.stage = .idle) (hs : w.stopped = false)
    (hd : s.log.Decodes codec first event) :
    (s.step store codec (.poll k)).route k = [(first, event)] := by
  obtain ⟨v, hv, hf⟩ := h.worker
  cases hk.symm.trans hv
  have hfeed : w.feed = .ofLog first := by simpa [hr] using hf (by simp [Worker.isFinished, hi])
  rw [System.route_poll hk store codec, hr, handover, hi, Worker.poll_of_decodes hi hs hfeed hd]
  rfl

end OnCourse

end System

end Chronicle
