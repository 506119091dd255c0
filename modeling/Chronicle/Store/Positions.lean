import Chronicle.NameMap
import Chronicle.Store.Basic

/-!
# Positions of subscribers

The last saved position of each subscriber. A position never goes back: one whose sequence is below the stored one's is
ignored. An equal one is taken, because all events of one transaction may share it.
-/

namespace Chronicle

/-- What saving a position did. -/
inductive SaveOutcome where
  | advanced
  | ignoredStale
deriving DecidableEq, Repr

/-- The last saved position of each subscriber. -/
structure Positions where
  saved : NameMap Position

namespace Positions

/-- No positions. -/
def empty : Positions := ⟨.empty⟩

/-- The position of a subscriber. -/
def load (subscriber : String) (ps : Positions) : Option Position := ps.saved.get? subscriber

/-- Saves a subscriber's position, unless a later one is stored. -/
def save (subscriber : String) (p : Position) (ps : Positions) : SaveOutcome × Positions :=
  match ps.load subscriber with
  | some stored =>
    if p.sequence < stored.sequence then (.ignoredStale, ps) else (.advanced, ⟨ps.saved.insert subscriber p⟩)
  | none => (.advanced, ⟨ps.saved.insert subscriber p⟩)

/-- Forgets a subscriber's position, and says whether there was one. -/
def delete (subscriber : String) (ps : Positions) : Bool × Positions :=
  ((ps.load subscriber).isSome, ⟨ps.saved.erase subscriber⟩)

end Positions

end Chronicle
