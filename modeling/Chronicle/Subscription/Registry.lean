import Chronicle.Subscription.Worker

/-!
# The registry of subscribers

The registry keeps one worker for each subscriber id. Workers have numbers, in the order in which they were started; the
registry knows the number of each id's worker. A worker that was taken out of it may still be at its last event.

`Registry.subscribe` and `Registry.release` are the atomic parts of subscribing and unsubscribing. Who unsubscribes then
waits until `Registry.outcome?` has an answer.
-/

namespace Chronicle

/-- Where a subscriber without a saved position starts. -/
inductive StartAt where
  | now
  | beginning
deriving DecidableEq, Repr

/-- Where to open the feed of a subscriber. -/
def StartAt.position (start : StartAt) : Option Position → StartPosition
  | some p => .after p
  | none =>
    match start with
    | .now => .now
    | .beginning => .beginning

/-- All workers that were started, and the number of each id's worker. -/
structure Registry where
  workers : List Worker
  registered : NameMap Nat

namespace Registry

/-- The registry without workers. -/
def empty : Registry := ⟨[], .empty⟩

/-- The worker of an id. -/
def worker? (r : Registry) (id : String) : Option Worker := r.registered.get? id >>= (r.workers[·]?)

/-- Whether an id has a worker that has not finished. -/
def isRunning (r : Registry) (id : String) : Bool := (r.worker? id).any (!·.isFinished)

/-- The ids, in ascending order. -/
def ids (r : Registry) : List String := r.registered.names

/-- How a worker has ended, if it has. -/
def outcome? (r : Registry) (k : Nat) : Option Outcome := r.workers[k]? >>= Worker.outcome?

/-- The registry with a worker changed. -/
def update (r : Registry) (k : Nat) (f : Worker → Worker) : Registry := { r with workers := r.workers.modify k f }

/-- Starts a worker for an id. -/
def spawn (r : Registry) (id : String) (feed : Feed) : Registry where
  workers := r.workers ++ [.start id feed]
  registered := r.registered.insert id r.workers.length

/-- Starts a worker for an id that has none, or whose worker has finished. The finished one is forgotten first; then the
position is loaded, and the feed is opened behind it or, without one, where `start` says. -/
def subscribe {σ : Type} (load : String → σ → Except StoreError (Option Position) × σ)
    (openFeed : StartPosition → Except StoreError Feed) (id : String) (start : StartAt) (s : σ) (r : Registry) :
    Outcome × σ × Registry :=
  if r.isRunning id then (.error (.alreadySubscribed id), s, r)
  else
    let r := { r with registered := r.registered.erase id }
    match load id s with
    | (.error e, s) => (.error (.store e), s, r)
    | (.ok saved, s) =>
      match openFeed (start.position saved) with
      | .error e => (.error (.store e), s, r)
      | .ok feed => (.ok (), s, r.spawn id feed)

/-- Takes an id out and tells its worker to stop: the worker's number, if the id was there. -/
def release (id : String) (r : Registry) : Except SubscriptionError Nat × Registry :=
  match r.registered.get? id with
  | some k => (.ok k, { r with registered := r.registered.erase id }.update k .stop)
  | none => (.error (.notSubscribed id), r)

/-- Forgets all ids and tells their workers to stop. -/
def abandon (r : Registry) : Registry :=
  r.registered.entries.foldl (fun r e => r.update e.2 .stop) { r with registered := .empty }

end Registry

end Chronicle
