import Chronicle.Text.Digits

/-!
# Log filters

Which lines of a log get through. A filter is a list of rules, separated by commas: a level for all targets, or a target
with the level from which its lines are shown. Of the rules whose target begins the name of a line's target the longest
decides, and of equal ones the last. `Filter.read?` reads a filter, `Filter.shows` applies it.
-/

namespace Chronicle

/-- How important a line of a log is, the most important first. -/
inductive LogLevel where
  | error
  | warn
  | info
  | debug
  | trace
deriving DecidableEq, Repr

/-- The number of a level. A filter with this number or a greater one shows its lines. -/
def LogLevel.number : LogLevel → Nat
  | .error => 1
  | .warn => 2
  | .info => 3
  | .debug => 4
  | .trace => 5

/-- A rule: the target it holds for, which is empty for all targets, and the number of the last level it shows. -/
structure LogRule where
  target : List Char
  shown : Nat
deriving DecidableEq, Repr

/-- The rules of a log. -/
structure LogFilter where
  rules : List LogRule
deriving DecidableEq, Repr

namespace LogFilter

/-- The number of all levels. -/
def everything : Nat := 5

/-- The number that a word or a digit for a level stands for: zero shows nothing. -/
def levelNumber? (word : List Char) : Option Nat :=
  match String.ofList (word.map Text.lowerAscii) with
  | "off" | "0" => some 0
  | "error" | "1" => some 1
  | "warn" | "2" => some 2
  | "info" | "3" => some 3
  | "debug" | "4" => some 4
  | "trace" | "5" => some 5
  | _ => none

/-- Whether a character may stand in the name of a target. -/
def isTargetChar (c : Char) : Bool := c.isAlphanum || c == '_' || c == ':' || c == '-' || 128 ≤ c.toNat

/-- Reads a rule: `LEVEL`, `TARGET`, or `TARGET=LEVEL`. A target without a level shows all of them. -/
def rule? (part : List Char) : Option LogRule :=
  match levelNumber? part with
  | some n => some ⟨[], n⟩
  | none =>
    let (target, rest) := part.span (· ≠ '=')
    if target.isEmpty || !target.all isTargetChar then none
    else
      match rest.drop 1 with
      | [] => some ⟨target, everything⟩
      | word => (levelNumber? word).map (⟨target, ·⟩)

/-- The parts of a text between commas. -/
def parts (text : List Char) : List (List Char) := (text.splitOn ',').filter (!·.isEmpty)

/-- Reads a filter. Empty parts do not count. -/
def read? (text : String) : Option LogFilter := ((parts text.toList).mapM rule?).map (⟨·⟩)

/-- The filter that shows everything down to `info`. -/
def standard : LogFilter := ⟨[⟨[], 3⟩]⟩

/-- The filter that a variable gives: the standard one, if it is missing or cannot be read. -/
def ofVariable (value : Option String) : LogFilter := (value >>= read?).getD standard

/-- Of two rules the one with the longer target, or the later one. -/
def stronger (a : Option LogRule) (b : LogRule) : Option LogRule :=
  match a with
  | some r => if b.target.length < r.target.length then some r else some b
  | none => some b

/-- The rule that decides about a target. -/
def deciding? (f : LogFilter) (target : List Char) : Option LogRule :=
  (f.rules.filter (·.target.isPrefixOf target)).foldl stronger none

/-- Whether a line gets through. -/
def shows (f : LogFilter) (target : String) (level : LogLevel) : Bool :=
  match f.deciding? target.toList with
  | some r => level.number ≤ r.shown
  | none => false

end LogFilter

/-! ## Installing a log -/

/-- How an attempt to install a log ends. There can be only one: `required` says that it has to be this one. -/
inductive LogInstallation where
  | installed
  | refused
  | fatal
deriving DecidableEq, Repr

/-- An attempt to install a log, when there may be one already. -/
def installLog (required alreadyThere : Bool) : LogInstallation :=
  if alreadyThere then (if required then .fatal else .refused) else .installed

/-- Attempts to install a log, one after the other. -/
def installLogs : Bool → List Bool → List LogInstallation
  | _, [] => []
  | alreadyThere, required :: rest => installLog required alreadyThere :: installLogs true rest

end Chronicle
