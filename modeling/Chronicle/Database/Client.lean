import Chronicle.Database.ChangeFeed
import Chronicle.Database.PositionStore
import Chronicle.NameMap

/-!
# Clients of a database

A client has a store of streams, a store of positions, and the feeds that it has opened under names.
-/

namespace Chronicle.Database

/-- A client of a database. -/
structure Client where
  events : EventStore
  positions : PositionStore
  feeds : NameMap ChangeCursor := .empty

namespace Client

/-- Sees to the indexes of both stores. -/
def setUp (c : Client) : Attempt Unit := do
  c.events.setUp
  c.positions.setUp

/-- Opens a feed under a name. -/
def openNamed (c : Client) (name : String) (start : StartPosition) : Dialogue (Except StoreError Unit × Client) := do
  match ← (c.events.openFeed start).run with
  | .ok cursor => return (.ok (), { c with feeds := c.feeds.insert name cursor })
  | .error e => return (.error e, c)

/-- The next items of the feed of a name. -/
def takeNamed (c : Client) (name : String) (count : Nat) :
    Dialogue (List (Option (Except StoreError Change)) × Client) := do
  match c.feeds.get? name with
  | some cursor =>
    let (items, cursor) ← cursor.take count
    return (items, { c with feeds := c.feeds.insert name cursor })
  | none => return ([], c)

end Client

end Chronicle.Database
