import Chronicle.Simulation.Basic

/-!
# Simulation: commands

What can be asked of a simulation. Each command gives an answer and the next state; none lets workers run, but for
`unsubscribe` and `shutdown`, which have to wait for them. Calls of the store can be made `concurrently`: each is done at
once, but a read that is not transactional asks for the version first, and for the events when all others are done.
-/

namespace Chronicle.Simulation

/-! ## The store -/

/-- A call of the store. -/
inductive StoreCall where
  | append (stream : String) (expected : ExpectedVersion) (events : List Event)
  | read (stream : String) (skip : Nat) (limit : Option Nat)
  | hasEvents (stream : String)

/-- What the store answers. -/
inductive StoreAnswer where
  | appended (r : Except StoreError AppendResult)
  | read (r : Except StoreError StreamSlice)
  | hasEvents (r : Except StoreError Bool)

/-- A call that has been started: done, or a read that has asked for the version only. -/
inductive StartedCall where
  | done (answer : StoreAnswer)
  | reading (stream : String) (skip : Nat) (limit : Option Nat) (early : EventLog)

/-- Starts a call. -/
def startCall (call : StoreCall) (s : Simulation) : StartedCall × Simulation :=
  match call with
  | .append stream expected events =>
    match s.log.append s.codec stream expected events with
    | .ok (result, log) => (.done (.appended (.ok result)), { s with log })
    | .error e => (.done (.appended (.error e)), s)
  | .read stream skip limit =>
    match s.config.consistency with
    | .transactional => (.done (.read (EventLog.readSlice s.codec stream skip limit s.log s.log)), s)
    | .independent => (.reading stream skip limit s.log, s)
  | .hasEvents stream => (.done (.hasEvents (s.log.hasEvents stream)), s)

/-- Starts calls, one after the other. -/
def startCalls : List StoreCall → Simulation → List StartedCall × Simulation
  | [], s => ([], s)
  | call :: rest, s =>
    let (started, s) := s.startCall call
    let (others, s) := startCalls rest s
    (started :: others, s)

/-- Ends a call that has been started. -/
def finishCall (s : Simulation) : StartedCall → StoreAnswer
  | .done answer => answer
  | .reading stream skip limit early => .read (EventLog.readSlice s.codec stream skip limit early s.log)

/-- Makes calls of the store at the same time. -/
def concurrently (calls : List StoreCall) (s : Simulation) : List StoreAnswer × Simulation :=
  let (started, s) := s.startCalls calls
  (started.map s.finishCall, s)

/-! ## Feeds -/

/-- Opens the store's feed under a name. -/
def openNamed (name : String) (start : StartPosition) (s : Simulation) : Except StoreError Unit × Simulation :=
  match s.log.openFeed start with
  | .ok feed => (.ok (), { s with feeds := s.feeds.insert name feed })
  | .error e => (.error e, s)

/-- Takes the items of a feed that are there, at most so many. -/
def takeReady (log : EventLog) : Nat → Feed → List (Except StoreError Change) × Feed
  | 0, feed => ([], feed)
  | n + 1, feed =>
    match log.poll feed with
    | .item r rest =>
      let (others, feed) := takeReady log n rest
      (r :: others, feed)
    | _ => ([], feed)

/-- Takes the items of a named feed that are there, at most so many. -/
def next (name : String) (limit : Nat) (s : Simulation) : List (Except StoreError Change) × Simulation :=
  match s.feeds.get? name with
  | some feed =>
    let (items, feed) := takeReady s.log (min limit (s.log.remaining feed)) feed
    (items, { s with feeds := s.feeds.insert name feed })
  | none => ([], s)

/-! ## Positions -/

/-- Loads a position. -/
def loadPosition (subscriber : String) (s : Simulation) : Except StoreError (Option Position) × Simulation :=
  let (r, positions) := s.positions.load subscriber
  (r, { s with positions })

/-- Saves a position. -/
def savePosition (subscriber : String) (p : Position) (s : Simulation) : Except StoreError SaveOutcome × Simulation :=
  let (r, positions) := s.positions.save subscriber p
  (r, { s with positions })

/-- Forgets a position, and says whether there was one. -/
def deletePosition (subscriber : String) (s : Simulation) : Bool × Simulation :=
  let (r, positions) := s.positions.positions.delete subscriber
  (r, { s with positions := { s.positions with positions } })

/-- Makes the next save of a sequence fail. -/
def failSave (sequence : Nat) (s : Simulation) : Simulation :=
  let faults := { s.positions.faults with saves := sequence :: s.positions.faults.saves }
  { s with positions := { s.positions with faults } }

/-- Makes the next load fail. -/
def failLoad (s : Simulation) : Simulation :=
  { s with positions := { s.positions with faults := { s.positions.faults with load := true } } }

/-! ## Subscribers -/

/-- Subscribes a handler with a script, at a gate of its own if it is `gated`. -/
def subscribe (subscriber : String) (start : Option StartAt) (script : Script) (gated : Bool) (s : Simulation) :
    Outcome × Simulation :=
  let (outcome, positions, registry) :=
    s.registry.subscribe FaultyPositions.load s.openFeed subscriber (start.getD s.defaultStart) s.positions
  let s := { s with positions, registry }
  match outcome with
  | .error e => (.error e, s)
  | .ok () =>
    if gated then
      (.ok (), { s with
        scripts := s.scripts ++ [{ script with gate := some s.gates.length }]
        gateOf := s.gateOf.insert subscriber s.gates.length
        gates := s.gates ++ [0] })
    else (.ok (), { s with scripts := s.scripts ++ [{ script with gate := none }] })

/-- Adds permits to the gate of a subscriber's last handler with one. -/
def openGate (subscriber : String) (permits : Nat) (s : Simulation) : Simulation :=
  match s.gateOf.get? subscriber with
  | some g => { s with gates := s.gates.modify g (· + permits) }
  | none => s

/-- Unsubscribes, adds permits to the gate, and lets workers run: how the subscriber's worker has ended, or nothing if it
is still waiting. -/
def unsubscribe (subscriber : String) (permits : Nat) (s : Simulation) : Option Outcome × Simulation :=
  match s.registry.release subscriber with
  | (.error e, _) => (some (.error e), s)
  | (.ok k, registry) =>
    let s := (openGate subscriber permits { s with registry }).runWorkers
    (s.registry.outcome? k, s)

/-- Unsubscribes some subscribers, one after the other. -/
def unsubscribeAll : List String → Simulation → List (String × Option Outcome) × Simulation
  | [], s => ([], s)
  | id :: rest, s =>
    let (outcome, s) := s.unsubscribe id 0
    let (others, s) := unsubscribeAll rest s
    ((id, outcome) :: others, s)

/-- Unsubscribes all subscribers, in the order of their ids. -/
def shutdown (s : Simulation) : List (String × Option Outcome) × Simulation := unsubscribeAll s.registry.ids s

/-- Drops the registry and makes a new one over the same store and positions. -/
def restart (s : Simulation) : Simulation := { s with registry := s.registry.abandon }

/-- The events that a subscriber's handlers have taken down since the last time. -/
def takeDelivered (subscriber : String) (s : Simulation) : List StreamEvent × Simulation :=
  ((s.taken.get? subscriber).getD [], { s with taken := s.taken.erase subscriber })

end Chronicle.Simulation
