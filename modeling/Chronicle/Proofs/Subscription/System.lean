import Chronicle.Proofs.Store.History
import Chronicle.Subscription.Registry

/-!
# Stores, workers and clients together

A `System` is one log, the positions and a registry with its workers. Whatever clients and workers do is an order of
atomic steps (`Action`): a client appends, saves or deletes a position, subscribes, unsubscribes or drops the
registry; a worker goes to its next event or receives the answer of its handler. A load and a save may fail without
effect. The `journal` only observes: it lists the events that were handed to handlers and what became of each.
-/

namespace Chronicle

/-- What became of an event in a handler. -/
inductive Mark where
  /-- The handler has it. -/
  | pending
  /-- It was handled, and its position saved. -/
  | saved
  /-- It was handled, but its position could not be saved. -/
  | unsaved
  /-- The handler failed or panicked. -/
  | failed
deriving DecidableEq

/-- An event in a handler's hands: whose handler, in which worker, and from which place of the feed. -/
structure Handover where
  subscriber : String
  worker : Nat
  place : Nat
  event : StreamEvent
  mark : Mark

/-- A log, positions, workers, and what was handed over. -/
structure System where
  log : EventLog
  positions : Positions
  registry : Registry
  journal : List Handover

/-- An atomic step. -/
inductive Action where
  | append (call : AppendCall)
  | save (subscriber : String) (position : Position)
  | delete (subscriber : String)
  | subscribe (subscriber : String) (start : StartAt) (loads : Bool)
  | unsubscribe (subscriber : String)
  | abandon
  /-- A worker goes to its next event. -/
  | poll (worker : Nat)
  /-- A worker's handler answers; the save that may follow works or fails. -/
  | settle (worker : Nat) (verdict : Verdict) (saves : Bool)

namespace System

/-- A log and positions without workers. -/
def initial (log : EventLog) (positions : Positions) : System := ⟨log, positions, .empty, []⟩

/-- The error of a store that does not answer. -/
def outage : StoreError := .unsupported (.other "outage")

/-- Loads a position, if the store answers. -/
def load (answers : Bool) (subscriber : String) (ps : Positions) : Except StoreError (Option Position) × Positions :=
  (if answers then .ok (ps.load subscriber) else .error outage, ps)

/-- Saves a position, if the store answers. -/
def save (answers : Bool) (subscriber : String) (p : Position) (ps : Positions) :
    Except StoreError SaveOutcome × Positions :=
  if answers then (.ok (ps.save subscriber p).1, (ps.save subscriber p).2) else (.error outage, ps)

/-- What a worker has handed over in going to its next event. -/
def handover (k : Nat) (w w' : Worker) : List Handover :=
  match w.stage, w'.stage with
  | .idle, .handling event position => [⟨w.subscriber, k, position.sequence, event, .pending⟩]
  | _, _ => []

/-- What becomes of an event with this answer. -/
def markOf (verdict : Verdict) (saves : Bool) : Mark :=
  match verdict with
  | .success => if saves then .saved else .unsaved
  | _ => .failed

/-- A journal in which a worker's event has been answered. -/
def answer (k : Nat) (mark : Mark) (journal : List Handover) : List Handover :=
  journal.map fun h => if h.worker = k ∧ h.mark = .pending then { h with mark } else h

/-- One step. `store` is the codec of the log, `codec` that of the workers. -/
def step (store codec : Codec) (s : System) : Action → System
  | .append call =>
    match s.log.append store call.stream call.expected call.events with
    | .ok (_, log) => { s with log }
    | .error _ => s
  | .save subscriber position => { s with positions := (s.positions.save subscriber position).2 }
  | .delete subscriber => { s with positions := (s.positions.delete subscriber).2 }
  | .subscribe subscriber start loads =>
    let (_, positions, registry) :=
      s.registry.subscribe (load loads) (fun p => s.log.openFeed p) subscriber start s.positions
    { s with positions, registry }
  | .unsubscribe subscriber => { s with registry := (s.registry.release subscriber).2 }
  | .abandon => { s with registry := s.registry.abandon }
  | .poll k =>
    match s.registry.workers[k]? with
    | none => s
    | some w =>
      let w' := w.poll codec s.log
      { s with registry := s.registry.update k fun _ => w', journal := s.journal ++ handover k w w' }
  | .settle k verdict saves =>
    match s.registry.workers[k]? with
    | none => s
    | some w =>
      match w.stage with
      | .handling _ _ =>
        let (w', positions) := w.settle (save saves) verdict s.positions
        { s with
          positions
          registry := s.registry.update k fun _ => w'
          journal := answer k (markOf verdict saves) s.journal }
      | _ => s

/-- What was handed to the handlers of a subscriber, in order. -/
def handed (s : System) (subscriber : String) : List Handover := s.journal.filter (·.subscriber = subscriber)

section

variable {store codec : Codec} {s : System} {k : Nat} {w : Worker}

theorem step_poll (hk : s.registry.workers[k]? = some w) :
    s.step store codec (.poll k) =
      { s with
        registry := s.registry.update k fun _ => w.poll codec s.log
        journal := s.journal ++ handover k w (w.poll codec s.log) } := by
  simp only [step, hk]

theorem step_settle (hk : s.registry.workers[k]? = some w) {event : StreamEvent} {position : Position}
    (hs : w.stage = .handling event position) (verdict : Verdict) (saves : Bool) :
    s.step store codec (.settle k verdict saves) =
      { s with
        positions := (w.settle (save saves) verdict s.positions).2
        registry := s.registry.update k fun _ => (w.settle (save saves) verdict s.positions).1
        journal := answer k (markOf verdict saves) s.journal } := by
  simp only [step, hk, hs]

/-- Only a worker that has an event in its hands takes an answer. -/
theorem step_settle_of_ne (hk : s.registry.workers[k]? = some w)
    (hs : ∀ event position, w.stage ≠ .handling event position) (verdict : Verdict) (saves : Bool) :
    s.step store codec (.settle k verdict saves) = s := by
  cases hst : w.stage with
  | handling event position => exact absurd hst (hs event position)
  | _ => simp only [step, hk, hst]

end

/-- A worker whose event is saved goes on, with the position stored; any other answer finishes it. -/
theorem settle_cases {w : Worker} {event : StreamEvent} {position : Position} (hs : w.stage = .handling event position)
    (verdict : Verdict) (saves : Bool) (ps : Positions) :
    (markOf verdict saves = .saved ∧
        w.settle (save saves) verdict ps = ({ w with stage := .idle }, (ps.save w.subscriber position).2)) ∨
      (markOf verdict saves ≠ .saved ∧ ∃ outcome, w.settle (save saves) verdict ps = (w.finish outcome, ps)) := by
  unfold Worker.settle
  rw [hs]
  cases verdict with
  | success =>
    cases saves with
    | true => exact .inl ⟨rfl, rfl⟩
    | false => exact .inr ⟨by decide, _, rfl⟩
  | failure reason => exact .inr ⟨nofun, _, rfl⟩
  | panic => exact .inr ⟨nofun, _, rfl⟩

theorem markOf_ne_pending (verdict : Verdict) (saves : Bool) : markOf verdict saves ≠ .pending := by
  cases verdict with
  | success => cases saves <;> decide
  | failure reason => exact nofun
  | panic => exact nofun

/-- An answer leaves what other workers have in their hands, and what has been answered. -/
theorem answer_of_forall {k : Nat} {js : List Handover} (h : ∀ x ∈ js, ¬(x.worker = k ∧ x.mark = .pending))
    (m : Mark) : answer k m js = js :=
  (List.map_congr_left fun x hx => if_neg (h x hx)).trans (List.map_id' js)

/-- An answer goes to the event in the worker's hands. -/
theorem answer_concat {k : Nat} {init : List Handover} {b : Handover} (hi : ∀ h ∈ init, h.mark ≠ .pending)
    (hk : b.worker = k) (hb : b.mark = .pending) (m : Mark) :
    answer k m (init ++ [b]) = init ++ [{ b with mark := m }] := by
  have hinit := answer_of_forall (k := k) (fun x hx hc => hi x hx hc.2) m
  rw [answer] at hinit
  rw [answer, List.map_append, hinit, List.map_singleton, if_pos ⟨hk, hb⟩]

section

variable {α : Type} {p : Handover → Bool} {f : Handover → α}

/-- An answer changes nothing but a mark. -/
theorem map_answer (k : Nat) (m : Mark) (js : List Handover) (hf : ∀ h m, f { h with mark := m } = f h) :
    (answer k m js).map f = js.map f := by
  rw [answer, List.map_map]
  refine List.map_congr_left fun h _ => ?_
  rw [Function.comp_apply]
  split
  · exact hf h m
  · rfl

theorem filter_answer (k : Nat) (m : Mark) (js : List Handover) (hp : ∀ h m, p { h with mark := m } = p h) :
    (answer k m js).filter p = answer k m (js.filter p) := by
  rw [answer, List.filter_map, answer]
  refine congrArg (fun q => (js.filter q).map _) (funext fun h => ?_)
  rw [Function.comp_apply]
  split
  · exact hp h m
  · rfl

end

/-- Only a worker between two events hands something over. -/
theorem handover_eq_nil {w w' : Worker} (h : w.stage ≠ .idle ∨ ∀ event position, w'.stage ≠ .handling event position)
    (k : Nat) : handover k w w' = [] := by
  unfold handover
  split
  · rename_i event position hi hh
    rcases h with h | h
    · exact absurd hi h
    · exact absurd hh (h event position)
  · rfl

/-- Nobody but the workers of a subscriber touches its position, and it is subscribed from the beginning, when none of
its workers is running any more. -/
def Undisturbed (subscriber : String) (s : System) : Action → Prop
  | .save other _ => other ≠ subscriber
  | .delete other => other ≠ subscriber
  | .subscribe other start _ =>
    other = subscriber → start = .beginning ∧ ∀ w ∈ s.registry.workers, w.subscriber = subscriber → w.isFinished = true
  | _ => True

/-- The states that steps of a kind lead to from a first one. -/
inductive Reachable (store codec : Codec) (Allowed : System → Action → Prop) (first : System) : System → Prop where
  | first : Reachable store codec Allowed first first
  | step {s : System} (a : Action) : Reachable store codec Allowed first s → Allowed s a →
    Reachable store codec Allowed first (s.step store codec a)

end System

end Chronicle
