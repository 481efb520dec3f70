import Laminate.Yaml.Token.Basic

/-!
# Layout

What a reader of tokens keeps in mind beside its position: the indentation of the open blocks, the
nesting of flow collections, and the places where a key without a sign of its own may have begun.
Such a key is recognized late, at the colon behind it; the token that announces it is then put
where it began, so tokens wait in a queue until no key can begin with the first of them.
-/

namespace Laminate.Yaml

/-- An open level of indentation. -/
structure Indent where
  /-- The column of the level around it. -/
  outer : Int
  /-- Whether a token ends the level. Levels without one only ask for deeper indentation. -/
  closes : Bool
deriving Repr

/-- A place where a key may have begun. -/
structure KeyStart where
  possible : Bool
  /-- Whether something else than a key would be a fault here. -/
  required : Bool
  /-- The number of the token that the key begins with. -/
  token : Nat
  place : Place
deriving Repr, Inhabited

/-- The place of a key that did not begin there after all. -/
def KeyStart.forget (start : KeyStart) : KeyStart :=
  { start with possible := false }

/-- Whether something else than a key would be a fault at a place. -/
def KeyStart.isDue (start : KeyStart) : Bool :=
  start.possible && start.required

/-- The state of a reader of tokens. -/
structure Layout where
  input : Input
  /-- The tokens that wait. -/
  queue : List PlacedToken := []
  /-- The number of tokens that were given out. -/
  delivered : Nat := 0
  /-- Whether a key may begin here. -/
  keyAllowed : Bool := true
  /-- The last place of a key for each open flow collection, the innermost one first. -/
  keyStarts : List KeyStart := [default]
  indent : Int := -1
  /-- The open levels of indentation, the innermost one first. -/
  indents : List Indent := []
  flowLevel : Nat := 0
  /-- The offset at which a colon may follow its key without a blank behind it. -/
  adjacentValue : Nat := 0
  /-- Whether a mapping with a mark of its own was opened in a flow collection, and no bare mapping
  was ended since. -/
  flowMappingOpen : Bool := false
  /-- Whether the last colon opened a bare mapping that has not been ended. -/
  bareMapping : Bool := false

/-- A computation on the state of a reader of tokens. -/
abbrev Scanning := StateT Layout (Except Problem)

namespace Scanning

/-- Gives up unless a condition holds. -/
def require (condition : Bool) (problem : Problem) : Scanning PUnit :=
  if condition then pure ⟨⟩ else throw problem

/-- Reads on in the text. -/
def read {α : Type} (reading : Reading α) : Scanning α := do
  let s ← get
  match reading s.input with
  | .ok (a, input) => do
    set { s with input }
    pure a
  | .error problem => throw problem

/-- The position in the text. -/
def input : Scanning Input := do
  pure (← get).input

/-- Whether a flow collection is open. -/
def inFlow : Scanning Bool := do
  pure ((← get).flowLevel ≠ 0)

/-- Puts a token at the end of the queue. -/
def push (token : Token) (place : Place) : Scanning PUnit :=
  modify fun s => { s with queue := s.queue ++ [⟨token, place⟩] }

/-- Puts a token before the token of a number. -/
def insert (number : Nat) (token : Token) (place : Place) : Scanning PUnit :=
  modify fun s =>
    let position := number - s.delivered
    { s with queue := s.queue.take position ++ ⟨token, place⟩ :: s.queue.drop position }

/-- Says whether a key may begin here. -/
def allowKey (allowed : Bool) : Scanning PUnit :=
  modify fun s => { s with keyAllowed := allowed }

/-! ## Indentation -/

/-- Leaves the innermost levels that no token ends. -/
def dropSilent (indent : Int) : List Indent → Int × List Indent
  | [] => (indent, [])
  | level :: rest => if level.closes then (indent, level :: rest) else dropSilent level.outer rest

/-- Leaves the innermost levels that no token ends. -/
def leaveSilent : Scanning PUnit :=
  modify fun s =>
    let (indent, indents) := dropSilent s.indent s.indents
    { s with indent, indents }

/-- Asks for indentation by one column more, unless that is asked for already. -/
def enterSilent : Scanning PUnit :=
  modify fun s =>
    if s.flowLevel = 0 ∧ (s.indents.head?.any fun level => level.closes) then
      { s with indents := ⟨s.indent, false⟩ :: s.indents, indent := s.indent + 1 }
    else s

/-- The state without an innermost level that no token ends, if a block at a column replaces it. -/
def replaceSilent (s : Layout) (column : Int) : Layout :=
  match s.indents with
  | level :: rest =>
    if s.indent ≤ column ∧ !level.closes then { s with indent := level.outer, indents := rest }
    else s
  | [] => s

/-- Opens a block at a place if it is indented deeper than the blocks around it. The token that
starts the block goes to the end of the queue, or before the token of a number. -/
def enter (place : Place) (number : Option Nat) (token : Token) : Scanning PUnit := do
  let column : Int := place.column
  if !(← inFlow) then
    modify fun s => replaceSilent s column
    let s ← get
    if s.indent < column then
      set { s with indents := ⟨s.indent, true⟩ :: s.indents, indent := column }
      match number with
      | some n => insert n token place
      | none => push token place

/-- The levels deeper than a column: the rest of the levels, and how many of them a token ends. -/
def dropDeeper (column indent : Int) : List Indent → Int × List Indent × Nat
  | [] => (indent, [], 0)
  | level :: rest =>
    if column < indent then
      let (indent, indents, closed) := dropDeeper column level.outer rest
      (indent, indents, if level.closes then closed + 1 else closed)
    else (indent, level :: rest, 0)

/-- Ends the blocks that are indented deeper than a column. -/
def leave (column : Int) : Scanning PUnit := do
  if !(← inFlow) then
    modify fun s =>
      let (indent, indents, closed) := dropDeeper column s.indent s.indents
      let ends := List.replicate closed ⟨Token.blockEnd, s.input.place⟩
      { s with indent, indents, queue := s.queue ++ ends }

/-! ## Places where keys begin -/

/-- Remembers that a key may begin here. -/
def saveKey : Scanning PUnit :=
  modify fun s =>
    if s.keyAllowed then
      let required := s.flowLevel == 0 && s.indent == s.input.column
        && (s.indents.head?.any fun level => level.closes)
      let start : KeyStart := ⟨true, required, s.delivered + s.queue.length, s.input.place⟩
      { s with keyStarts := start :: s.keyStarts.drop 1 }
    else s

/-- Forgets the last place where a key may have begun; a key that is required is missed. -/
def removeKey : Scanning PUnit := do
  let s ← get
  match s.keyStarts with
  | start :: rest => do
    require (!start.isDue) .keyExpected
    set { s with keyStarts := start.forget :: rest }
  | [] => pure ⟨⟩

/-- Whether a key that began at a place is too long by now. -/
def isStale (s : Layout) (start : KeyStart) : Bool :=
  start.possible && s.flowLevel == 0
    && (start.place.line < s.input.place.line || start.place.offset + 1024 < s.input.place.offset)

/-- Forgets the places of keys that are too long by now: a key outside of flow collections ends on
its line, within 1024 characters. -/
def removeStale : Scanning PUnit := do
  let s ← get
  require (!(s.keyStarts.any fun start => isStale s start && start.required)) .keyExpected
  let kept := s.keyStarts.map fun start => if isStale s start then start.forget else start
  set { s with keyStarts := kept }

/-- Forgets all places of keys. -/
def removeAllKeys : Scanning PUnit := do
  let s ← get
  require (!s.keyStarts.any KeyStart.isDue) .keyExpected
  set { s with keyStarts := s.keyStarts.map KeyStart.forget }

end Scanning

end Laminate.Yaml
