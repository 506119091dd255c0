import Chronicle.Yaml.Basic

/-!
# Reading a YAML text

The place that reading has come to, with the line and the column that indentation is measured by, and the steps that
move it: over characters, blanks, comments and line breaks. A reader fails when the text is malformed.
-/

namespace Chronicle.Yaml

/-- Where reading has come to. -/
structure Place where
  rest : List Char
  line : Nat
  column : Nat
  /-- Only blanks have been read on this line. -/
  fresh : Bool
  /-- The nodes that an alias can name. -/
  anchors : List (String × Yaml)

/-- The beginning of a text. A carriage return ends a line, alone or in front of a line feed. -/
def Place.start (s : String) : Place :=
  ⟨unifyBreaks s.toList, 0, 0, true, []⟩
where
  /-- A text with line feeds only. -/
  unifyBreaks : List Char → List Char
    | '\r' :: '\n' :: rest => '\n' :: unifyBreaks rest
    | '\r' :: rest => '\n' :: unifyBreaks rest
    | c :: rest => c :: unifyBreaks rest
    | [] => []

/-- A part of the grammar, which fails on a malformed text. -/
abbrev Reader := StateT Place Option

/-- Whether a character is a blank within a line. -/
def isBlank (c : Char) : Bool := c == ' ' || c == '\t'

/-- Whether a character is a blank or ends a line. -/
def isSpace (c : Char) : Bool := isBlank c || c == '\n'

/-- Whether a character has a meaning of its own inside a flow collection. -/
def isFlowIndicator (c : Char) : Bool := c ∈ [',', '[', ']', '{', '}']

/-- Whether a text begins with a space, or is at its end. -/
def startsWithSpace : List Char → Bool
  | [] => true
  | c :: _ => isSpace c

/-- Whether a text begins with the marker of a document's start or end. -/
def startsWithMarker : List Char → Bool
  | a :: b :: c :: rest => a == b && b == c && (a == '-' || a == '.') && startsWithSpace rest
  | _ => false

/-- A place one character on. -/
def Place.next (p : Place) : Place :=
  match p.rest with
  | [] => p
  | '\n' :: rest => { p with rest, line := p.line + 1, column := 0, fresh := true }
  | c :: rest => { p with rest, column := p.column + 1, fresh := p.fresh && isBlank c }

namespace Reader

/-- What is still to be read. -/
def rest : Reader (List Char) := Place.rest <$> get

/-- The column. -/
def column : Reader Nat := Place.column <$> get

/-- The line. -/
def line : Reader Nat := Place.line <$> get

/-- The next character. -/
def peek : Reader (Option Char) := List.head? <$> rest

/-- Moves over one character. -/
def next : Reader Unit := modify Place.next

/-- Moves over some characters. -/
def advance (n : Nat) : Reader Unit := modify fun p => n.repeat Place.next p

/-- Reads the longest run of characters of a class. -/
def takeWhile (class? : Char → Bool) : Reader (List Char) := do
  let taken := (← rest).takeWhile class?
  advance taken.length
  return taken

/-- Whether a document's marker, or the end of the text, comes next. -/
def atDocumentEnd : Reader Bool := do
  let p ← get
  return p.rest.isEmpty || (p.column == 0 && startsWithMarker p.rest)

/-- Moves over a comment, if there is one, up to the end of its line. -/
def comment : Reader Unit := do
  if (← peek) = some '#' then discard <| takeWhile (· ≠ '\n')

/-- Fails if something does not hold. -/
def require (holds : Bool) : Reader Unit := if holds then pure () else failure

/-- Moves over blanks and a comment to the end of the line, where nothing else may stand. -/
def endOfLine : Reader Unit := do
  discard <| takeWhile isBlank
  comment
  require ((← peek).all (· == '\n'))

/-- Moves over blanks. A tab may not stand in the indentation, which is `indent` wide, of a line that holds more. -/
def blanks (indent : Int) : Reader Unit := do
  let p ← get
  let run ← takeWhile isBlank
  match run.findIdx? (· == '\t') with
  | some i => if p.fresh ∧ ((p.column + i : Nat) : Int) < indent then endOfLine
  | none => pure ()

/-- Moves over blanks, comments and line breaks. -/
def skip (indent : Int) : Reader Unit := do
  skipLines ((← rest).length + 1)
where
  /-- Moves over blanks, comments and line breaks, at most so many lines. -/
  skipLines : Nat → Reader Unit
    | 0 => pure ()
    | n + 1 => do
      blanks indent
      comment
      if (← peek) = some '\n' then
        next
        skipLines n

/-- Keeps a node for the aliases of its anchor. -/
def remember (anchor : Option String) (node : Yaml) : Reader Unit :=
  match anchor with
  | some name => modify fun p => { p with anchors := (name, node) :: p.anchors }
  | none => pure ()

/-- The node that an alias names. -/
def anchored (name : String) : Reader Yaml := do
  match (← get).anchors.lookup name with
  | some node => return node
  | none => failure

end Reader

end Chronicle.Yaml
