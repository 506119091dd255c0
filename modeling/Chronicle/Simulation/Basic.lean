import Chronicle.Store.Config
import Chronicle.Subscription.Registry

/-!
# Simulation: state and workers

A store, the positions and a registry on one thread, with handlers that follow scripts and with faults on request.
Nothing happens by itself: `Simulation.runWorkers` runs each worker, in the order in which they were started, until it
waits for a change or at its handler's gate, or has finished.
-/

namespace Chronicle

/-- What a handler is going to do. It takes the event down and waits at its gate, if it has one. Then it panics at one
version, fails at some others, and succeeds at the rest. -/
structure Script where
  failAt : List Nat
  failOnce : Bool
  panicAt : Option Nat
  message : String
  gate : Option Nat

/-- The verdict on an event. -/
def Script.verdict (s : Script) (event : StreamEvent) : Verdict :=
  if s.panicAt = some event.version then .panic
  else if event.version ∈ s.failAt then .failure s.message
  else .success

/-- The script once the verdict on an event has been given: one that fails once does not fail there again. -/
def Script.after (s : Script) (event : StreamEvent) : Script :=
  if s.failOnce && s.panicAt ≠ some event.version then { s with failAt := s.failAt.filter (· ≠ event.version) } else s

/-- The faults that are still to come: saves of these sequences, and a load. -/
structure Faults where
  saves : List Nat
  load : Bool

/-- The positions, with the faults of the store that keeps them. -/
structure FaultyPositions where
  positions : Positions
  faults : Faults

namespace FaultyPositions

/-- No positions and no faults. -/
def empty : FaultyPositions := ⟨.empty, ⟨[], false⟩⟩

/-- Loads a position, unless a fault is due. -/
def load (subscriber : String) (ps : FaultyPositions) : Except StoreError (Option Position) × FaultyPositions :=
  if ps.faults.load then
    (.error (.unsupported (.other "simulated load failure")), { ps with faults := { ps.faults with load := false } })
  else (.ok (ps.positions.load subscriber), ps)

/-- Saves a position, unless a fault is due. -/
def save (subscriber : String) (p : Position) (ps : FaultyPositions) : Except StoreError SaveOutcome × FaultyPositions :=
  if p.sequence ∈ ps.faults.saves then
    let faults := { ps.faults with saves := ps.faults.saves.erase p.sequence }
    (.error (.unsupported (.other "simulated crash")), { ps with faults })
  else
    let (outcome, positions) := ps.positions.save subscriber p
    (.ok outcome, { ps with positions })

end FaultyPositions

/-- A recorded feed, which stands in for the log's. -/
structure Recording where
  items : List (Except StoreError Change)
  ends : Bool

/-- The state of a simulation. -/
structure Simulation where
  config : StoreConfig
  workerCodec : Codec
  defaultStart : StartAt
  recording : Option Recording
  log : EventLog := .empty
  positions : FaultyPositions := .empty
  registry : Registry := .empty
  /-- The script of each worker's handler. -/
  scripts : List Script := []
  /-- The permits of each gate. -/
  gates : List Nat := []
  /-- The gate of the last handler with one, for each subscriber. -/
  gateOf : NameMap Nat := .empty
  /-- The events that handlers took down and nobody has asked for. -/
  taken : NameMap (List StreamEvent) := .empty
  /-- Feeds of the store that were opened under a name. -/
  feeds : NameMap Feed := .empty

namespace Simulation

/-- The codec of the store. -/
def codec (s : Simulation) : Codec := .json s.config.times

/-- Opens the feed for a worker. -/
def openFeed (s : Simulation) (start : StartPosition) : Except StoreError Feed :=
  match s.recording with
  | some r => .ok (.recorded r.items r.ends)
  | none => s.log.openFeed start

/-- The gate of a worker's handler has no permit. -/
def isBlocked (s : Simulation) (script : Script) : Bool :=
  match script.gate with
  | some g => s.gates.getD g 0 = 0
  | none => false

/-- Takes a permit out of the gate of a handler. -/
def passGate (script : Script) (s : Simulation) : Simulation :=
  match script.gate with
  | some g => { s with gates := s.gates.modify g (· - 1) }
  | none => s

/-- Lets a worker run until it waits or has finished. -/
def runWorker (k : Nat) : Nat → Simulation → Simulation
  | 0, s => s
  | fuel + 1, s =>
    match s.registry.workers[k]?, s.scripts[k]? with
    | some w, some script =>
      match w.stage with
      | .idle =>
        let w' := w.poll s.workerCodec s.log
        match w'.stage with
        | .idle => s
        | .handling event _ =>
          let taken := s.taken.insert w.subscriber ((s.taken.get? w.subscriber).getD [] ++ [event])
          runWorker k fuel { s with registry := s.registry.update k fun _ => w', taken }
        | .finished _ => { s with registry := s.registry.update k fun _ => w' }
      | .handling event _ =>
        if s.isBlocked script then s
        else
          let s := s.passGate script
          let (w', positions) := w.settle FaultyPositions.save (script.verdict event) s.positions
          runWorker k fuel
            { s with
              registry := s.registry.update k fun _ => w'
              positions
              scripts := s.scripts.modify k (·.after event) }
      | .finished _ => s
    | _, _ => s

/-- How many steps a worker can take: two for each item of its feed, one to settle the event that it is at, and one to
find that there is nothing more. -/
def stepsLeft (k : Nat) (s : Simulation) : Nat :=
  match s.registry.workers[k]? with
  | some w => 2 * s.log.remaining w.feed + 2
  | none => 0

/-- Lets every worker run until it waits or has finished. -/
def runWorkers (s : Simulation) : Simulation :=
  (List.range s.registry.workers.length).foldl (fun s k => s.runWorker k (s.stepsLeft k)) s

end Simulation

end Chronicle
