import Chronicle.Yaml.Place

/-!
# YAML scalars

The four ways to write a word or a text: plain, between single quotes, between double quotes, and as an indented block.
Within a plain or quoted scalar a line break counts as a space, and every empty line as a line break.
-/

namespace Chronicle.Yaml

/-- What a number of line breaks within a scalar stands for. -/
def foldedBreaks (breaks : Nat) : List Char :=
  if breaks ≤ 1 then [' '] else List.replicate (breaks - 1) '\n'

/-- A text without the blanks at its end. -/
def dropBlanksRight (cs : List Char) : List Char := (cs.reverse.dropWhile isBlank).reverse

namespace Reader

/-- Reads the blanks and line breaks at this place: the blanks before the first break, and how many breaks. -/
def gap (indent : Int) : Reader (List Char × Nat) := do
  let run ← takeWhile isBlank
  if (← peek) ≠ some '\n' then return (run, 0)
  let n ← lines ((← rest).length)
  return ([], n)
where
  /-- Moves over line breaks and the blanks behind each. -/
  lines : Nat → Reader Nat
    | 0 => return 0
    | fuel + 1 => do
      if (← peek) = some '\n' then
        next
        blanks indent
        return (← lines fuel) + 1
      else return 0

/-! ## Plain scalars -/

/-- Whether a colon in front of this text separates a key from a value. -/
def separates (inFlow : Bool) : List Char → Bool
  | [] => true
  | c :: _ => isSpace c || (inFlow && isFlowIndicator c)

/-- Whether a plain scalar can begin here. -/
def startsPlain (inFlow : Bool) : List Char → Bool
  | [] => false
  | c :: rest =>
    if c == '-' || c == '?' || c == ':' then !separates inFlow rest
    else !(isSpace c || isFlowIndicator c || c ∈ ['#', '&', '*', '!', '|', '>', '\'', '"', '%', '@', '\x60'])

/-- The part of a line that belongs to a plain scalar: up to a comment, or to a colon that separates. -/
def plainPart (inFlow : Bool) (afterBlank : Bool) : List Char → List Char
  | [] => []
  | c :: rest =>
    if c == '\n' || (c == '#' && afterBlank) || (c == ':' && separates inFlow rest) || (inFlow && isFlowIndicator c) then []
    else c :: plainPart inFlow (isBlank c) rest

/-- Reads the part of this line that belongs to a plain scalar. -/
def plainLine (inFlow : Bool) : Reader (List Char) := do
  let part := dropBlanksRight (plainPart inFlow false (← rest))
  advance part.length
  return part

/-- Reads the further lines of a plain scalar: those that are indented more than `parent`. -/
def plainLines (inFlow : Bool) (parent : Int) : Nat → Reader (List Char)
  | 0 => return []
  | fuel + 1 => do
    let here ← get
    let (_, breaks) ← gap (parent + 1)
    let p ← get
    let goesOn := 0 < breaks && !(← atDocumentEnd) && (inFlow || parent < p.column)
      && !(plainPart inFlow true p.rest).isEmpty
    if goesOn then
      let part ← plainLine inFlow
      return foldedBreaks breaks ++ part ++ (← plainLines inFlow parent fuel)
    else
      set here
      return []

/-! ## Quoted scalars -/

/-- The character of an escape that is one letter. -/
def escaped? : Char → Option Char
  | '0' => some '\x00'
  | 'a' => some '\x07'
  | 'b' => some '\x08'
  | 't' | '\t' => some '\t'
  | 'n' => some '\n'
  | 'v' => some '\x0b'
  | 'f' => some '\x0c'
  | 'r' => some '\r'
  | 'e' => some '\x1b'
  | ' ' => some ' '
  | '"' => some '"'
  | '/' => some '/'
  | '\\' => some '\\'
  | 'N' => some '\u0085'
  | '_' => some '\u00a0'
  | 'L' => some '\u2028'
  | 'P' => some '\u2029'
  | _ => none

/-- The number of hexadecimal digits of an escape that gives a character's number. -/
def escapeWidth? : Char → Option Nat
  | 'x' => some 2
  | 'u' => some 4
  | 'U' => some 8
  | _ => none

/-- Reads what stands behind a backslash. -/
def escape (indent : Int) : Reader (List Char) := do
  let some c ← peek | failure
  if c == '\n' then
    let (_, breaks) ← gap indent
    return if breaks ≤ 1 then [] else foldedBreaks breaks
  next
  match escaped? c, escapeWidth? c with
  | some d, _ => return [d]
  | none, some width =>
    let ds := (← rest).take width
    require (ds.length = width)
    match valueIn? 16 ds with
    | some n =>
      require n.isValidChar
      advance width
      return [Char.ofNat n]
    | none => failure
  | none, none => failure

/-- Reads a scalar up to its closing quote. -/
def quoted (quote : Char) (indent : Int) : Nat → Reader (List Char)
  | 0 => failure
  | fuel + 1 => do
    let some c ← peek | failure
    if ← atDocumentEnd then failure
    if isSpace c then
      let (run, breaks) ← gap indent
      require (breaks = 0 || indent ≤ (← column))
      return (if breaks = 0 then run else foldedBreaks breaks) ++ (← quoted quote indent fuel)
    next
    if c == quote then
      if quote == '\'' && (← peek) = some '\'' then
        next
        return '\'' :: (← quoted quote indent fuel)
      else return []
    if c == '\\' && quote == '"' then
      let part ← escape indent
      return part ++ (← quoted quote indent fuel)
    return c :: (← quoted quote indent fuel)

end Reader

/-! ## Block scalars -/

/-- What becomes of the line breaks at the end of a block scalar. -/
inductive Chomping where
  | strip
  | clip
  | keep

/-- The head of a block scalar. -/
structure BlockHead where
  folded : Bool
  chomping : Chomping
  indentation : Option Nat

/-- The lines of a text. -/
def linesOf (cs : List Char) : List (List Char) := cs.splitOn '\n'

/-- How many spaces a line begins with. -/
def spacesOf (l : List Char) : Nat := (l.takeWhile (· == ' ')).length

/-- The lines that belong to a block scalar of this indentation: those that are indented enough, or hold spaces only. -/
def blockLines (indent : Nat) (lines : List (List Char)) : List (List Char) :=
  lines.takeWhile fun l => indent ≤ spacesOf l || l.all (· == ' ')

/-- The text of lines whose indentation is gone, and the number of line breaks behind it. `breaks` counts the breaks since
the last line that was not empty, and `afterText` says that there was one and that it began with no blank. -/
def blockText (folded : Bool) (breaks : Nat) (afterText : Bool) : List (List Char) → List Char × Nat
  | [] => ([], breaks)
  | [] :: rest => blockText folded (breaks + 1) afterText rest
  | (c :: cs) :: rest =>
    let plain := !isBlank c
    let joint := if folded && afterText && plain && 0 < breaks then foldedBreaks breaks else List.replicate breaks '\n'
    let (text, last) := blockText folded 1 plain rest
    (joint ++ c :: cs ++ text, last)

/-- The text of a block scalar, from its lines without their indentation. -/
def BlockHead.text (head : BlockHead) (lines : List (List Char)) : List Char :=
  let (text, breaks) := blockText head.folded 0 false lines
  match head.chomping with
  | .strip => text
  | .clip => if text.isEmpty then [] else text ++ ['\n']
  | .keep => text ++ List.replicate breaks '\n'

namespace Reader

/-- Reads the head of a block scalar behind its first character: a digit and a sign, in either order. -/
def blockHead (folded : Bool) : Reader BlockHead := do
  let marks ← takeWhile fun c => c == '+' || c == '-' || Text.isDigit c
  let signs := marks.filter (!Text.isDigit ·)
  let digits := marks.filter Text.isDigit
  require (signs.length ≤ 1 && digits.length ≤ 1 && digits ≠ ['0'])
  endOfLine
  return {
    folded
    chomping := match signs with
      | ['+'] => .keep
      | ['-'] => .strip
      | _ => .clip
    indentation := if digits.isEmpty then none else some (Text.value digits) }

/-- Reads a block scalar behind its first character. -/
def blockScalar (folded : Bool) (parent : Int) : Reader String := do
  let head ← blockHead folded
  if (← peek).isNone then return ""
  next
  let lines := linesOf (← rest)
  let least := (max (parent + 1) 1).toNat
  let indent := match head.indentation with
    | some n => (max parent 0).toNat + n
    | none =>
      match lines.find? fun l => !l.all (· == ' ') with
      | some l => max least (spacesOf l)
      | none => least
  let body := blockLines indent lines
  body.forM fun l => advance (l.length + 1)
  -- the text's end is no further line
  let body := if body.length = lines.length && body.getLast? = some [] then body.dropLast else body
  return String.ofList (head.text (body.map (·.drop indent)))

end Reader

end Chronicle.Yaml
