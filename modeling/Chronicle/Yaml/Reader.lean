import Chronicle.Yaml.Scalar

/-!
# YAML documents

Nodes and the documents they make up. A block collection is the run of entries that begin in one column; a node belongs
to it as long as it is indented more than its parent. A key stands on one line. `Yaml.documents?` reads a whole text.
-/

namespace Chronicle.Yaml

/-- The tag of a node, as far as it matters: one of the core schema's, or another. -/
inductive Tag where
  | core (name : String)
  | other

/-- What stands in front of a node. -/
structure Properties where
  anchor : Option String
  tag : Option Tag

/-- Nothing in front of a node. -/
def Properties.nothing : Properties := ⟨Option.none, Option.none⟩

/-- Whether nothing stands in front of a node. -/
def Properties.isEmpty (props : Properties) : Bool := props.anchor.isNone && props.tag.isNone

/-- The node of a plain scalar behind properties. -/
def Properties.plain (props : Properties) (text : String) : Yaml :=
  match props.tag with
  | none => ofPlain text
  | some (.core name) => ofTagged name text
  | some .other => .string text

/-- The collection of a single pair. -/
def pair (key value : Yaml) : Yaml := .mapping [(key, value)]

/-- The mapping of these entries, if no key stands twice. -/
def mappingOf? (entries : List (Yaml × Yaml)) : Option Yaml :=
  if distinct (entries.map Prod.fst) then some (.mapping entries) else none
where
  /-- Whether no key stands twice. -/
  distinct : List Yaml → Bool
    | [] => true
    | k :: rest => !rest.elem k && distinct rest

namespace Reader

/-- Reads the name of an anchor or of an alias. -/
def name : Reader String := do
  let cs ← takeWhile fun c => !(isSpace c || isFlowIndicator c)
  require (!cs.isEmpty)
  return String.ofList cs

/-- Reads a tag behind its exclamation mark. -/
def tag : Reader Tag := do
  if (← peek) = some '<' then
    discard <| takeWhile fun c => !(isSpace c || c == '>')
    require ((← peek) = some '>')
    next
    return .other
  let cs ← takeWhile fun c => !(isSpace c || isFlowIndicator c)
  match cs with
  | '!' :: cs =>
    require (!cs.isEmpty && !cs.elem '!')
    return .core (String.ofList cs)
  | cs =>
    require (!cs.elem '!')
    return .other

/-- Reads the anchor and the tag of a node, in either order, and the blanks behind them. -/
def properties : Reader Properties := do
  one (← one .nothing)
where
  /-- Reads one of the two, if it comes next. -/
  one (props : Properties) : Reader Properties := do
    match ← peek with
    | some '&' =>
      require props.anchor.isNone
      next
      let anchor ← name
      discard <| takeWhile isBlank
      return { props with anchor := some anchor }
    | some '!' =>
      require props.tag.isNone
      next
      let t ← tag
      require (startsWithSpace (← rest) || (← rest).head?.any isFlowIndicator)
      discard <| takeWhile isBlank
      return { props with tag := some t }
    | _ => return props

/-- Reads an alias or a quoted scalar. -/
def word? (indent : Int) : Reader (Option Yaml) := do
  match ← peek with
  | some '*' =>
    next
    return some (← anchored (← name))
  | some '\'' =>
    next
    return some (.string (String.ofList (← quoted '\'' indent ((← rest).length + 1))))
  | some '"' =>
    next
    return some (.string (String.ofList (← quoted '"' indent ((← rest).length + 1))))
  | _ => return none

/-- Whether a character comes next that a space, or in a flow collection one of its marks, follows. -/
def atMark (mark : Char) (inFlow : Bool) : Reader Bool := do
  match ← rest with
  | c :: rest => return c == mark && separates inFlow rest
  | [] => return false

/-! ## Flow collections -/

/-- Moves over blanks and line breaks inside a flow collection, which has to stay within its indentation. -/
def skipInFlow (indent : Int) : Reader Unit := do
  skip indent
  if ← atDocumentEnd then failure
  require (indent ≤ (← column))

/-- Moves over the colon between a key and its value, if it comes next. Behind a quoted key or a collection no space has to
follow. -/
def colonInFlow (afterClosed : Bool) : Reader Bool := do
  if (← atMark ':' true) || (afterClosed && (← peek) = some ':') then
    next
    return true
  else return false

/-- Whether a node of a flow collection ends itself. -/
def isClosed : Option Char → Bool
  | some c => c ∈ ['"', '\'', '[', '{']
  | none => false

/-- Moves over the comma behind an entry; false in front of the closing bracket. -/
def comma (closing : Char) (indent : Int) : Reader Bool := do
  skipInFlow indent
  match ← peek with
  | some ',' =>
    next
    return true
  | c =>
    require (c = some closing)
    return false

mutual

/-- Reads a node of a flow collection. -/
def flowNode (indent : Int) : Nat → Reader Yaml
  | 0 => failure
  | fuel + 1 => do
    let props ← properties
    skipInFlow indent
    match ← word? indent with
    | some node =>
      remember props.anchor node
      return node
    | none =>
      match ← peek with
      | some '[' =>
        next
        let node := Yaml.sequence (← flowItems indent fuel)
        remember props.anchor node
        return node
      | some '{' =>
        next
        let some node := mappingOf? (← flowEntries indent fuel) | failure
        remember props.anchor node
        return node
      | _ =>
        let node ←
          if startsPlain true (← rest) then
            let first ← plainLine true
            let more ← plainLines true indent ((← rest).length)
            pure (props.plain (String.ofList (first ++ more)))
          else
            require (!props.isEmpty)
            pure (props.plain "")
        remember props.anchor node
        return node

/-- Reads the value behind a colon, which may be missing. -/
def flowValue (indent : Int) : Nat → Reader Yaml
  | 0 => failure
  | fuel + 1 => do
    skipInFlow indent
    if (← peek).any fun c => c ∈ [',', ']', '}'] then return .null
    flowNode indent fuel

/-- Reads a key, if there is one, and the value behind it: nothing for a value when no colon follows. -/
def flowPair (indent : Int) : Nat → Reader (Yaml × Option Yaml)
  | 0 => failure
  | fuel + 1 => do
    let marked ← atMark '?' true
    if marked then
      next
      skipInFlow indent
    let first ← peek
    let key ←
      if (← atMark ':' true) || (marked && first.any fun c => c ∈ [',', ']', '}']) then pure Yaml.null
      else flowNode indent fuel
    skipInFlow indent
    if ← colonInFlow (isClosed first) then return (key, some (← flowValue indent fuel))
    return (key, if marked then some .null else none)

/-- Reads the rest of a flow sequence. -/
def flowItems (indent : Int) : Nat → Reader (List Yaml)
  | 0 => failure
  | fuel + 1 => do
    skipInFlow indent
    if (← peek) = some ']' then
      next
      return []
    let item ← match ← flowPair indent fuel with
      | (key, some value) => pure (pair key value)
      | (node, none) => pure node
    if ← comma ']' indent then return item :: (← flowItems indent fuel)
    next
    return [item]

/-- Reads the rest of a flow mapping. -/
def flowEntries (indent : Int) : Nat → Reader (List (Yaml × Yaml))
  | 0 => failure
  | fuel + 1 => do
    skipInFlow indent
    if (← peek) = some '}' then
      next
      return []
    let (key, value) ← flowPair indent fuel
    let entry := (key, value.getD .null)
    if ← comma '}' indent then return entry :: (← flowEntries indent fuel)
    next
    return [entry]

end

/-! ## Block collections -/

/-- Reads a flow collection that begins at this place, within a block. -/
def flowCollection (parent : Int) (fuel : Nat) : Reader Yaml := do
  match ← peek with
  | some '[' =>
    next
    return .sequence (← flowItems parent fuel)
  | _ =>
    next
    let some node := mappingOf? (← flowEntries parent fuel) | failure
    return node

/-- Moves over the colon behind a key of a block mapping, and what has to separate it from the value. -/
def colon : Reader Unit := do
  next
  if (← peek) = some '\t' then
    let run ← takeWhile isBlank
    let c ← peek
    require (run.elem ' ' || !c.any fun c => c.isAlphanum || c == '_' || c == '-')

/-- Whether no node follows that is indented more than its parent. A sequence that is a value may begin in the column of
its key. -/
def endsBlock (parent : Int) (isValue : Bool) : Reader Bool := do
  if ← atDocumentEnd then return true
  let c : Int := (← column)
  return c < parent || (c == parent && !(isValue && (← atMark '-' false)))

mutual

/-- Reads a node that is indented more than its parent, or nothing if there is none. A collection may begin at this place
if `atStart` says so, and behind every line break. The properties on the lines `above` hold for a scalar too. -/
def blockNode (parent : Int) (isValue atStart : Bool) (above : Properties) : Nat → Reader Yaml
  | 0 => failure
  | fuel + 1 => do
    let before ← line
    skip parent
    let atStart := atStart || before < (← line)
    if ← endsBlock parent isValue then return .null
    let start ← column
    let startLine ← line
    let props ← properties
    let next? ← peek
    if !props.isEmpty && next?.all fun c => c == '\n' || c == '#' then
      -- properties on a line of their own belong to the whole node that follows
      skip parent
      let node ←
        if ← endsBlock parent isValue then pure (props.plain "")
        else blockNode parent isValue true props fuel
      remember props.anchor node
      return node
    if ← atMark '-' false then
      require (atStart && props.isEmpty)
      return .sequence (← blockItems start fuel)
    if (← atMark '?' false) || (← atMark ':' false) then
      guard atStart
      remember props.anchor .null
      let some node := mappingOf? (← blockEntries start fuel) | failure
      return node
    match next? with
    | some '|' | some '>' =>
      next
      let text ← blockScalar (next? = some '>') parent
      remember props.anchor (.string text)
      return .string text
    | _ =>
      let isFlow := next?.any fun c => c ∈ ['[', '{']
      let quoted? ← word? parent
      let (node, plain?) ← match quoted? with
        | some node => pure (node, none)
        | none =>
          if isFlow then pure (← flowCollection parent fuel, none)
          else
            require (startsPlain false (← rest))
            pure (.null, some (← plainLine false))
      let here ← get
      blanks parent
      if ← atMark ':' false then
        -- the node is the first key of a mapping
        require (atStart && startLine = (← line))
        let node := (plain?.map fun part => props.plain (String.ofList part)).getD node
        remember props.anchor node
        colon
        let value ← blockNode start true false .nothing fuel
        let rest ← blockEntries start fuel
        let some whole := mappingOf? ((node, value) :: rest) | failure
        return whole
      set here
      let node ← match plain? with
        | none => pure node
        | some part =>
          let more ← plainLines false parent ((← rest).length)
          let own := if props.isEmpty then above else props
          pure (own.plain (String.ofList (part ++ more)))
      remember props.anchor node
      return node

/-- Reads the entries of a block sequence in its column. -/
def blockItems (start : Nat) : Nat → Reader (List Yaml)
  | 0 => failure
  | fuel + 1 => do
    skip start
    if (← atDocumentEnd) || (← column) < start then return []
    require ((← column) = start)
    -- in the column of its key, a sequence ends at the next key
    if !(← atMark '-' false) then return []
    next
    let item ← blockNode start false true .nothing fuel
    return item :: (← blockItems start fuel)

/-- Reads the entries of a block mapping in its column. -/
def blockEntries (start : Nat) : Nat → Reader (List (Yaml × Yaml))
  | 0 => failure
  | fuel + 1 => do
    skip start
    if (← atDocumentEnd) || (← column) < start then return []
    require ((← column) = start)
    let startLine ← line
    let marked ← atMark '?' false
    let key ←
      if marked then
        next
        blockNode start false true .nothing fuel
      else if ← atMark ':' false then pure Yaml.null
      else
        let props ← properties
        let c ← peek
        let node ← match ← word? start with
          | some node => pure node
          | none =>
            if c.any fun c => c ∈ ['[', '{'] then flowCollection start fuel
            else
              require (startsPlain false (← rest))
              pure (props.plain (String.ofList (← plainLine false)))
        remember props.anchor node
        blanks start
        require ((← atMark ':' false) && startLine = (← line))
        pure node
    if marked then
      skip start
    let value ←
      if (← atMark ':' false) && (!marked || (← column) = start) then
        colon
        blockNode start true marked .nothing fuel
      else pure Yaml.null
    return (key, value) :: (← blockEntries start fuel)

end

/-! ## Documents -/

/-- Moves over the directives in front of a document: whether there was one. -/
def directives : Nat → Reader Bool
  | 0 => failure
  | fuel + 1 => do
    skip (-1)
    if (← peek) = some '%' && (← column) = 0 then
      discard <| takeWhile (· ≠ '\n')
      discard <| directives fuel
      return true
    else return false

/-- Reads documents up to the end of the text. `bare` says whether one may begin without a marker. -/
def documents (bare : Bool) : Nat → Reader (List Yaml)
  | 0 => failure
  | fuel + 1 => do
    let directed ← directives (fuel + 1)
    let p ← get
    if p.rest.isEmpty then
      require (!directed)
      return []
    if p.column = 0 && startsWithMarker p.rest then
      advance 3
      if p.rest.head? = some '.' then
        require (!directed)
        endOfLine
        documents true fuel
      else
        document fuel
    else
      require (bare && !directed)
      document fuel
where
  /-- Reads a document and those behind it. -/
  document (fuel : Nat) : Reader (List Yaml) := do
    let node ← blockNode (-1) false (← get).fresh .nothing (4 * ((← rest).length + 4))
    skip (-1)
    require (← atDocumentEnd)
    return node :: (← documents false fuel)

end Reader

/-- The documents of a text, if it is well-formed. -/
def documents? (s : String) : Option (List Yaml) :=
  let start := Place.start s
  ((Reader.documents true (start.rest.length + 2)).run start).map Prod.fst

end Chronicle.Yaml
