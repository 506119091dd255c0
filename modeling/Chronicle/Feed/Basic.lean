import Chronicle.Store.EventLog

/-!
# Feeds of changes

A feed hands out every event document once it is committed, with the position just behind it. The feed of a log knows
the place of the next document; its tokens are such places, so that it can be opened again behind any change it handed
out. A recorded feed hands out the same items each time it is opened.
-/

namespace Chronicle

/-- Where to open a feed. -/
inductive StartPosition where
  | now
  | beginning
  | after (p : Position)

/-- A document that was inserted, and the position just behind it. -/
structure Change where
  document : Document
  position : Position

/-- An open feed: of a log, at a place, or the rest of a recorded one. -/
inductive Feed where
  | ofLog (next : Nat)
  | recorded (items : List (Except StoreError Change)) (ends : Bool)

/-- What a feed has at a moment. -/
inductive Poll where
  | item (r : Except StoreError Change) (rest : Feed)
  | waiting
  | ended

/-- The place that a token names. -/
def logIndexOf : Bson → Except StoreError Nat
  | .int64 n => if n < 0 then .error (.invalidToken (.negativeIndex n)) else .ok n.toInt.toNat
  | other => .error (.invalidToken (.notAnIndex other))

namespace EventLog

/-- The position just behind the document at a place. -/
def positionOf (place : Nat) : Position := ⟨.int64 (Int64.ofNat place), place⟩

/-- The place at which a feed of the log begins. -/
def startOf (start : StartPosition) (log : EventLog) : Except StoreError Nat :=
  match start with
  | .now => .ok log.size
  | .beginning => .ok 0
  | .after p => (logIndexOf p.token).map (· + 1)

/-- Opens a feed of the log. -/
def openFeed (start : StartPosition) (log : EventLog) : Except StoreError Feed := (log.startOf start).map .ofLog

/-- The change at a place. -/
def change? (place : Nat) (log : EventLog) : Option Change :=
  log.documents[place]?.map fun d => ⟨d, positionOf place⟩

/-- What a feed has, when the log is like this. -/
def poll (log : EventLog) : Feed → Poll
  | .ofLog next =>
    match log.change? next with
    | some c => .item (.ok c) (.ofLog (next + 1))
    | none => .waiting
  | .recorded (r :: rest) ends => .item r (.recorded rest ends)
  | .recorded [] true => .ended
  | .recorded [] false => .waiting

/-- How many items a feed still has, when the log is like this. -/
def remaining (log : EventLog) : Feed → Nat
  | .ofLog next => log.size - next
  | .recorded items _ => items.length

end EventLog

end Chronicle
