import Chronicle.Settings.Reading

/-!
# Sources of settings

Settings come from files and from the environment. `Settings.load` merges, later ones over earlier ones: the default
file, if it exists, the file that the caller names, the file that the variable `STRAND_CONFIG` names, and the variables
whose names begin with `STRAND__`, in which `__` separates levels.
-/

namespace Chronicle.Settings

/-- The file that is read if it exists. -/
def defaultFile : String := "strand.yaml"

/-- The variable that names a file. -/
def fileVariable : String := "STRAND_CONFIG"

/-- What the names of variables with settings begin with, in lower case. -/
def variablePrefix : String := "strand__"

/-- What the origin of such settings is called. -/
def environment : String := "the environment"

/-! ## Files -/

/-- A path without the parts that mean the directory itself. -/
def plainPath (path : String) : String :=
  if path.startsWith "/" then path
  else String.intercalate "/" ((path.splitOn "/").filter fun part => part ≠ "" ∧ part ≠ ".")

/-- The file of this name, or of this name with one of the usual endings. -/
def findFile? (files : List (String × String)) (name : String) : Option (String × String) :=
  let path := plainPath name
  [path, path ++ ".yaml", path ++ ".yml"].findSome? fun p => (Fields.get? p files).map (p, ·)

/-- The settings in a file: a mapping, or nothing at all. -/
def ofFile (name content : String) : Except SettingsError (List (String × Tree)) :=
  match Yaml.documents? content with
  | some [] => .ok []
  | some [doc] =>
    match Tree.ofYaml? name doc with
    | some (.table fields _) => .ok fields
    | _ => .error (.malformedFile name)
  | _ => .error (.malformedFile name)

/-- The settings in the file of this name. -/
def ofFileNamed (files : List (String × String)) (required : Bool) (name : String) :
    Except SettingsError (List (String × Tree)) :=
  match findFile? files name with
  | some (found, content) => ofFile found content
  | none => if required then .error (.missingFile name) else .ok []

/-! ## Environment -/

/-- The value of a variable. -/
def ofVariable (s : String) : Scalar :=
  let cs := s.toList
  match Text.lower s, Text.int64? cs, Decimal.read? cs with
  | "true", _, _ => .boolean true
  | "false", _, _ => .boolean false
  | _, some n, _ => .integer n
  | _, none, some x => .double x
  | _, none, none => .string s

/-- The key that a variable gives a value, if it is one with settings. -/
def keyOfVariable? (name : String) : Option String :=
  let name := Text.lower name
  if name.startsWith variablePrefix then
    some (String.intercalate "." ((String.ofList (name.toList.drop variablePrefix.length)).splitOn "__"))
  else none

/-- The settings in the environment. -/
def ofEnvironment (vars : List (String × String)) : List (String × Tree) :=
  vars.filterMap fun (name, value) =>
    (keyOfVariable? name).map (·, .scalar (ofVariable value) (some environment))

/-! ## All sources -/

/-- The settings that the sources give together. -/
def load (files vars : List (String × String)) (path : Option String) : Except SettingsError Settings := do
  let first ← ofFileNamed files false defaultFile
  let named ← match path with
    | some p => ofFileNamed files true p
    | none => .ok []
  let pointed ← match Fields.get? fileVariable vars with
    | some p => ofFileNamed files true p
    | none => .ok []
  settings ([first, named, pointed, ofEnvironment vars].foldl (fun t fs => t.addAll fs) Tree.empty)
where
  /-- A tree with more settings. -/
  addAll (t : Tree) (fs : List (String × Tree)) : Tree := Tree.addAll fs t

end Chronicle.Settings
