import Chronicle.Feed.Basic
import Chronicle.Store.Positions

/-!
# Workers

A worker delivers the changes of a feed to the handler of one subscriber, one at a time. It waits at three places: for a
change, for the handler, and for good once it has finished. Between events it looks at the stop signal first. A position
is saved only when the handler has succeeded, so a failure leaves the worker stalled in front of the event.

`Worker.poll` and `Worker.settle` are the two atomic steps: to the next event, and from the handler's answer on.
-/

namespace Chronicle

/-- Why a subscription failed. -/
inductive SubscriptionError where
  | alreadySubscribed (subscriber : String)
  | notSubscribed (subscriber : String)
  | handler (subscriber stream : String) (version : Nat) (reason : String)
  | store (e : StoreError)
  | panicked (subscriber : String)

/-- What is wrong, in words. -/
def SubscriptionError.message : SubscriptionError → String
  | .alreadySubscribed subscriber => s!"Subscriber '{subscriber}' is already running"
  | .notSubscribed subscriber => s!"Subscriber '{subscriber}' is not subscribed"
  | .handler subscriber stream version reason =>
    s!"Handler of subscriber '{subscriber}' failed on {stream}@{version}: {reason}"
  | .store e => s!"Storage error: {e.message}"
  | .panicked subscriber => s!"Worker of subscriber '{subscriber}' panicked"

/-- How a worker ended: by being stopped or at the end of its feed, or by an error. -/
abbrev Outcome := Except SubscriptionError Unit

/-- Where a worker is. -/
inductive Stage where
  /-- Between two events. -/
  | idle
  /-- The handler has the event; its position is saved if it succeeds. -/
  | handling (event : StreamEvent) (position : Position)
  | finished (outcome : Outcome)

/-- A worker. -/
structure Worker where
  subscriber : String
  feed : Feed
  stopped : Bool
  stage : Stage

/-- What a handler does with an event. -/
inductive Verdict where
  | success
  | failure (reason : String)
  | panic

namespace Worker

/-- A worker at the beginning of a feed. -/
def start (subscriber : String) (feed : Feed) : Worker := ⟨subscriber, feed, false, .idle⟩

/-- Whether a worker has come to its end. -/
def isFinished (w : Worker) : Bool :=
  match w.stage with
  | .finished _ => true
  | _ => false

/-- How a worker has ended, if it has. -/
def outcome? (w : Worker) : Option Outcome :=
  match w.stage with
  | .finished outcome => some outcome
  | _ => none

/-- Tells a worker to stop after the event that it is at. -/
def stop (w : Worker) : Worker := { w with stopped := true }

/-- A worker that has ended. -/
def finish (outcome : Outcome) (w : Worker) : Worker := { w with stage := .finished outcome }

/-- Hands the event of a change to the handler, if the change is one. -/
def receive (codec : Codec) (item : Except StoreError Change) (w : Worker) : Worker :=
  match item with
  | .error e => w.finish (.error (.store e))
  | .ok change =>
    match codec.decode change.document with
    | .error e => w.finish (.error (.store (.decoding e)))
    | .ok event => { w with stage := .handling event change.position }

/-- A step of a worker that is between two events; a worker elsewhere stays as it is. -/
def poll (codec : Codec) (log : EventLog) (w : Worker) : Worker :=
  match w.stage with
  | .idle =>
    if w.stopped then w.finish (.ok ())
    else
      match log.poll w.feed with
      | .item r rest => { w with feed := rest }.receive codec r
      | .waiting => w
      | .ended => w.finish (.ok ())
  | _ => w

/-- A step of a worker whose handler has answered, with the way to save a position. Saving is tried only if the handler
succeeded. -/
def settle {σ : Type} (save : String → Position → σ → Except StoreError SaveOutcome × σ) (verdict : Verdict) (s : σ)
    (w : Worker) : Worker × σ :=
  match w.stage with
  | .handling event position =>
    match verdict with
    | .success =>
      match save w.subscriber position s with
      | (.ok _, s) => ({ w with stage := .idle }, s)
      | (.error e, s) => (w.finish (.error (.store e)), s)
    | .failure reason => (w.finish (.error (.handler w.subscriber event.stream event.version reason)), s)
    | .panic => (w.finish (.error (.panicked w.subscriber)), s)
  | _ => (w, s)

end Worker

end Chronicle
