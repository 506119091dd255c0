import Chronicle.Fields
import Chronicle.Text.Case
import Chronicle.Yaml.Reader

/-!
# Trees of settings

Settings from several sources grow into one tree. `Tree.put` adds a value at a path: tables are merged name by name, and
anything else replaces what stood there. Names in tables are in lower case. A value knows the source it came from.
-/

namespace Chronicle.Settings

/-- A setting without parts. -/
inductive Scalar where
  | null
  | boolean (b : Bool)
  | integer (n : Int64)
  | double (x : Float)
  | string (s : String)

/-- Settings by name, with the source that a value came from. A table that was merged comes from none. -/
inductive Tree where
  | scalar (value : Scalar) (origin : Option String)
  | list (items : List Tree) (origin : Option String)
  | table (fields : List (String × Tree)) (origin : Option String)

namespace Tree

/-- The tree without settings. -/
def empty : Tree := .table [] none

/-- The settings of a table; nothing for any other tree. -/
def fields : Tree → List (String × Tree)
  | .table fs _ => fs
  | _ => []

/-- The source of a value. -/
def origin : Tree → Option String
  | .scalar _ o => o
  | .list _ o => o
  | .table _ o => o

/-- A table with a setting, instead of the one it had. -/
def withField (name : String) (value : Tree) : Tree → Tree
  | .table fs o => .table (Fields.set name value fs) o
  | _ => .table [(name, value)] none

mutual

/-- Puts a value into a table under a name, merging tables. What is no table becomes one. -/
def putField (name : String) (value root : Tree) : Tree :=
  let root := match root with
    | .table .. => root
    | _ => empty
  match value with
  | .table fs _ =>
    let target := (Fields.get? (Text.lower name) root.fields).getD empty
    withField (Text.lower name) (putFields fs target) root
  | value => withField (Text.lower name) value root

/-- Puts values into a table, one after the other. -/
def putFields : List (String × Tree) → Tree → Tree
  | [], root => root
  | (k, v) :: rest, root => putFields rest (putField k v root)

end

/-- A list with a new item at a place. Missing items are null. A negative place counts from the end. -/
def putItem (i : Int) (f : Tree → Tree) (root : Tree) : Tree :=
  let (items, o) := match root with
    | .list items o => (items, o)
    | _ => ([], none)
  let place := (if i < 0 then items.length + i else i).toNat
  let items := items ++ List.replicate (place + 1 - items.length) (.scalar .null none)
  .list (items.mapIdx fun j item => if j = place then f item else item) o

end Tree

/-! ## Paths -/

/-- A step into a tree. -/
inductive Step where
  | field (name : String)
  | item (index : Int)

/-- Whether a character may stand in a name of a path. -/
def isNameChar (c : Char) : Bool := c.isAlphanum || c == '_' || c == '-' || c == ' '

/-- The steps of a path behind its first name: `.name` or `[index]`. -/
def steps? : Nat → List Char → Option (List Step)
  | _, [] => some []
  | fuel + 1, '.' :: rest =>
    let (name, rest) := rest.span isNameChar
    if name.isEmpty then none else (steps? fuel rest).map (.field (String.ofList name) :: ·)
  | fuel + 1, '[' :: rest =>
    let (index, rest) := rest.span (· ≠ ']')
    match Text.integer? index, rest with
    | some i, _ :: rest => (steps? fuel rest).map (.item i :: ·)
    | _, _ => none
  | _, _ => none

/-- The path that a key stands for: one name, if it is none. -/
def pathOf (key : String) : List Step :=
  let (name, rest) := key.toList.span isNameChar
  if name.isEmpty then [.field key]
  else
    match steps? rest.length rest with
    | some steps => .field (String.ofList name) :: steps
    | none => [.field key]

/-- Puts a value at a path. -/
def Tree.put (value : Tree) : List Step → Tree → Tree
  | [], _ => value
  | [.field name], root => putField name value root
  | .field name :: steps, root =>
    let inner := (Fields.get? (Text.lower name) root.fields).getD (.scalar .null none)
    withField (Text.lower name) (put value steps inner) root
  | .item i :: steps, root => putItem i (put value steps) root

/-- Settings put into a tree, each at the path that its key stands for. -/
def Tree.addAll (fields : List (String × Tree)) (root : Tree) : Tree :=
  fields.foldl (fun t f => put f.2 (pathOf f.1) t) root

/-! ## From YAML -/

/-- The text of a key. -/
def keyText? : Yaml → Option String
  | .string s => some s
  | .integer n => some (String.ofList (Text.signed n.toInt))
  | .boolean b => some (if b then "true" else "false")
  | .real text => some text
  | _ => none

mutual

/-- The tree of a YAML value, if its keys are words and its numbers can be read. -/
def Tree.ofYaml? (origin : String) : Yaml → Option Tree
  | .null => some (.scalar .null origin)
  | .boolean b => some (.scalar (.boolean b) origin)
  | .integer n => some (.scalar (.integer n) origin)
  | .real text => (Decimal.read? text.toList).map fun x => .scalar (.double x) origin
  | .string s => some (.scalar (.string s) origin)
  | .sequence items => (Tree.ofItems? origin items).map fun ts => .list ts origin
  | .mapping entries => (Tree.ofEntries? origin entries).map fun fs => .table (Fields.ofList fs) origin

/-- The trees of some values. -/
def Tree.ofItems? (origin : String) : List Yaml → Option (List Tree)
  | [] => some []
  | v :: rest => do return (← Tree.ofYaml? origin v) :: (← Tree.ofItems? origin rest)

/-- The trees of some entries, by their keys. -/
def Tree.ofEntries? (origin : String) : List (Yaml × Yaml) → Option (List (String × Tree))
  | [] => some []
  | (k, v) :: rest => do
    let key ← keyText? k
    return (key, ← Tree.ofYaml? origin v) :: (← Tree.ofEntries? origin rest)

end

end Chronicle.Settings
