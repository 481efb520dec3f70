import Laminate.Yaml.Token.Block
import Laminate.Yaml.Token.Layout
import Laminate.Yaml.Token.Plain
import Laminate.Yaml.Token.Property
import Laminate.Yaml.Token.Quoted

/-!
# The tokens of a text

Reads a text token by token. What a character means depends on the blocks and flow collections
that are open and on whether a key may begin; all of that is in `Layout`.

## Bare mappings

A colon in a flow collection opens a mapping without marks of its own, a bare one, unless a brace
or a question mark has opened a mapping since the last bare one was ended. The next comma or
closing mark ends it, at whatever depth it stands, and the next colon forgets it; one that was
forgotten is still open and has to be closed by a brace. The colons of a text that has opened
another mapping are left to the grammar, which knows pairs without marks as well.

## Termination

The loops count down from a number that the length of the text gives: each round reads a
character or reaches the end of the text, and a character gives rise to a few tokens at most.
-/

namespace Laminate.Yaml.Scanning

/-! ## Between tokens -/

/-- Skips blanks, line breaks and comments. A tab may not stand for the indentation of a block,
unless the line has no content. -/
def skipSpace : Nat → Scanning PUnit
  | 0 => pure ⟨⟩
  | steps + 1 => do
    let s ← get
    let i := s.input
    match i.next with
    | none => pure ⟨⟩
    | some c =>
      if c == '\t' && !s.indents.isEmpty && i.fresh && i.column < s.indent then do
        let _ ← read (Reading.restOfLine true)
        require (atLineEnd (← input).next) .tabIndentation
        skipSpace steps
      else if isBlank c then do
        set { s with input := i.forward 1 }
        skipSpace steps
      else if isBreak c then do
        set { s with input := i.skipBreak, keyAllowed := s.keyAllowed || s.flowLevel == 0 }
        skipSpace steps
      else if c == '#' then do
        set { s with input := i.skipLine }
        skipSpace steps
      else pure ⟨⟩

/-- Skips blanks, line breaks and comments, as far as they go. -/
def skipAllSpace : Scanning PUnit := do
  skipSpace ((← input).rest.length + 1)

/-- Skips spaces, line breaks and comments, and says whether there was a space or a break. -/
def skipSpaceAfterKey : Nat → Scanning Bool
  | 0 => pure false
  | steps + 1 => do
    let s ← get
    let i := s.input
    match i.next with
    | none => pure false
    | some c =>
      if c == ' ' then do
        set { s with input := i.forward 1 }
        let _ ← skipSpaceAfterKey steps
        pure true
      else if isBreak c then do
        set { s with input := i.skipBreak, keyAllowed := s.keyAllowed || s.flowLevel == 0 }
        let _ ← skipSpaceAfterKey steps
        pure true
      else if c == '#' then do
        set { s with input := i.skipLine }
        skipSpaceAfterKey steps
      else pure false

/-! ## Single tokens -/

/-- Skips characters. -/
def skip (count : Nat) : Scanning PUnit :=
  modify fun s => { s with input := s.input.skip count }

/-- The end of the text. -/
def fetchEnd : Scanning PUnit := do
  modify fun s =>
    let place := s.input.place
    if place.column = 0 then s
    else { s with input.place := ⟨place.offset, place.line + 1, 0⟩ }
  removeAllKeys
  leave (-1)
  removeKey
  allowKey false
  push .streamEnd (← input).place

/-- A directive. -/
def fetchDirective : Scanning PUnit := do
  leave (-1)
  removeKey
  allowKey false
  let place := (← input).place
  push (← read Property.directive) place

/-- The mark of the start or of the end of a document. -/
def fetchDocumentMark (token : Token) : Scanning PUnit := do
  leave (-1)
  removeKey
  allowKey false
  let place := (← input).place
  skip 3
  push token place

/-- The mark of the end of a document, and the rest of its line. -/
def fetchDocumentEnd : Scanning PUnit := do
  fetchDocumentMark .documentEnd
  let _ ← read (Reading.restOfLine true)
  require (atLineEnd (← input).next) .contentAfterEnd

/-- Ends the bare mapping that the last colon opened, if it did. -/
def endBareMapping : Scanning PUnit := do
  let s ← get
  if s.bareMapping then do
    set { s with flowMappingOpen := false, bareMapping := false }
    push .flowMappingEnd s.input.place

/-- The nesting of flow collections that is still read. -/
def maxFlowLevel : Nat := 255

/-- The start of a flow collection. -/
def fetchFlowStart (token : Token) : Scanning PUnit := do
  saveKey
  enterSilent
  require ((← get).flowLevel < maxFlowLevel) .nestedTooDeep
  modify fun s =>
    { s with keyStarts := default :: s.keyStarts, flowLevel := s.flowLevel + 1 }
  allowKey true
  let place := (← input).place
  skip 1
  if token = .flowMappingStart then
    modify fun s => { s with flowMappingOpen := true }
  let _ ← read (Reading.restOfLine true)
  push token place

/-- The end of a flow collection. -/
def fetchFlowEnd (token : Token) : Scanning PUnit := do
  removeKey
  modify fun s =>
    if s.flowLevel = 0 then s
    else { s with flowLevel := s.flowLevel - 1, keyStarts := s.keyStarts.drop 1 }
  allowKey false
  endBareMapping
  let place := (← input).place
  skip 1
  let _ ← read (Reading.restOfLine true)
  modify fun s =>
    if s.flowLevel = 0 then s else { s with adjacentValue := s.input.place.offset }
  push token place

/-- The comma between the entries of a flow collection. -/
def fetchFlowEntry : Scanning PUnit := do
  removeKey
  allowKey true
  endBareMapping
  let place := (← input).place
  skip 1
  let _ ← read (Reading.restOfLine true)
  push .flowEntry place

/-- Whether properties at the start of a line wait for their node inside a block, which is no
place for a sequence at the start of a line. -/
def propertyWaits (s : Layout) : Bool :=
  s.input.place.column == 0 && (-1 : Int) < s.indent &&
    match s.queue.getLast? with
    | some ⟨.anchor _, place⟩ => place.column == 0
    | some ⟨.tag _ _, place⟩ => place.column == 0
    | _ => false

/-- The dash before an entry of a block sequence. -/
def fetchBlockEntry : Scanning PUnit := do
  let s ← get
  require (s.flowLevel == 0 && s.keyAllowed) .entryNotAllowed
  require (!propertyWaits s) .badIndentation
  skip 1
  enter s.input.place none .blockSequenceStart
  let blanks ← read (Reading.restOfLine true)
  let i ← input
  require (!(blanks.tab && i.next == some '-' && atGap (i.peek 1))) .blankExpected
  if atBreak i.next || atFlow i.next then enterSilent
  removeKey
  allowKey true
  push .blockEntry (← input).place

/-- The question mark before a key. -/
def fetchKey : Scanning PUnit := do
  let s ← get
  let place := s.input.place
  if s.flowLevel = 0 then
    require s.keyAllowed .keyNotAllowed
    enter place none .blockMappingStart
  else set { s with flowMappingOpen := true }
  removeKey
  allowKey (s.flowLevel == 0)
  skip 1
  let spaced ← skipSpaceAfterKey ((← input).rest.length + 1)
  require spaced .blankExpected
  require ((← input).next ≠ some '\t') .tabIndentation
  push .key place

/-- Whether the colon after a key is followed by a tab and then by a word at once. -/
def skipTabAfterColon : Scanning PUnit := do
  if (← input).next == some '\t' then
    let blanks ← read (Reading.restOfLine true)
    require (blanks.space || !((← input).next.any isWord)) .blankExpected

/-- The colon between a key and its value. If a key may have begun before it, the token that
announces the key is put there now, and the start of a bare mapping before it. -/
def fetchValue : Scanning PUnit := do
  let s ← get
  let place := s.input.place
  let bare := s.flowLevel ≠ 0 && !s.flowMappingOpen
  set { s with bareMapping := bare }
  skip 1
  skipTabAfterColon
  let here := (← input).place
  let start := s.keyStarts.headD default
  if start.possible then
    insert start.token .key start.place
    if bare then
      require (place.line ≤ start.place.line) .valueNotAllowed
      insert start.token .flowMappingStart here
    enter start.place (some start.token) .blockMappingStart
    enterSilent
    modify fun s => { s with keyStarts := start.forget :: s.keyStarts.drop 1 }
    allowKey false
  else
    if bare then push .flowMappingStart here
    if s.flowLevel = 0 then
      require s.keyAllowed .valueNotAllowed
      enter place none .blockMappingStart
    enterSilent
    allowKey (s.flowLevel == 0)
  push .value place

/-- A reference to an anchor. -/
def fetchAlias : Scanning PUnit := do
  saveKey
  allowKey false
  let place := (← input).place
  push (.alias (← read Property.anchorName)) place

/-- An anchor. -/
def fetchAnchor : Scanning PUnit := do
  saveKey
  allowKey false
  let place := (← input).place
  push (.anchor (← read Property.anchorName)) place

/-- A tag. -/
def fetchTag : Scanning PUnit := do
  saveKey
  allowKey false
  let s ← get
  push (← read (Property.tag (s.flowLevel ≠ 0))) s.input.place

/-- A block scalar. -/
def fetchBlockScalar (literal : Bool) : Scanning PUnit := do
  saveKey
  allowKey true
  let place := (← input).place
  leaveSilent
  let block := (← get).indent
  push (.scalar .block (← read (Block.read literal block))) place

/-- A quoted scalar. A colon may follow it without a blank. -/
def fetchQuoted (single : Bool) : Scanning PUnit := do
  saveKey
  allowKey false
  let s ← get
  let text ← read (Quoted.read single s.indent (s.flowLevel ≠ 0))
  skipAllSpace
  modify fun s => { s with adjacentValue := s.input.place.offset }
  push (.scalar .quoted text) s.input.place

/-- A plain scalar. A key may begin after it if it ends at the start of a line. -/
def fetchPlain : Scanning PUnit := do
  saveKey
  allowKey false
  leaveSilent
  let s ← get
  let text ← read (Plain.read s.indent (s.flowLevel ≠ 0))
  if (← input).fresh then allowKey true
  push (.scalar .plain text) s.input.place

/-- Reads what begins with a given character. -/
def fetchAt (c : Char) : Scanning PUnit := do
  let s ← get
  let after := s.input.peek 1
  let flow := s.flowLevel ≠ 0
  let adjacent := flow && (atFlow after || s.input.place.offset == s.adjacentValue)
  if c == '[' then fetchFlowStart .flowSequenceStart
  else if c == '\x7b' then fetchFlowStart .flowMappingStart
  else if c == ']' then fetchFlowEnd .flowSequenceEnd
  else if c == '\x7d' then fetchFlowEnd .flowMappingEnd
  else if c == ',' then fetchFlowEntry
  else if c == '-' && atGap after then fetchBlockEntry
  else if c == '?' && atGap after then fetchKey
  else if c == ':' && (atGap after || adjacent) then fetchValue
  else if c == '*' then fetchAlias
  else if c == '&' then fetchAnchor
  else if c == '!' then fetchTag
  else if c == '|' && !flow then fetchBlockScalar true
  else if c == '>' && !flow then fetchBlockScalar false
  else if c == '\'' then fetchQuoted true
  else if c == '"' then fetchQuoted false
  else if c == '%' || c == '@' || c.toNat == 0x60 then throw .badCharacter
  else fetchPlain

/-- Reads on until there is at least one more token. -/
def fetch : Scanning PUnit := do
  skipAllSpace
  removeStale
  let i ← input
  leave i.column
  match i.next with
  | none => fetchEnd
  | some c =>
    if i.place.column == 0 && c == '%' then fetchDirective
    else if i.marksDocument '-' then fetchDocumentMark .documentStart
    else if i.marksDocument '.' then fetchDocumentEnd
    else do
      require ((← get).indent ≤ i.column) .badIndentation
      fetchAt c

/-! ## All tokens -/

/-- Whether the first token of the queue may still turn out to be the start of a key. -/
def firstIsOpen (s : Layout) : Bool :=
  s.keyStarts.any fun start => start.possible && start.token == s.delivered

/-- Reads on until the first token of the queue is settled. -/
def settle : Nat → Scanning PUnit
  | 0 => pure ⟨⟩
  | steps + 1 => do
    if (← get).queue.isEmpty then do
      fetch
      settle steps
    else do
      removeStale
      if firstIsOpen (← get) then do
        fetch
        settle steps

/-- Gives out the next token. -/
def next : Scanning PlacedToken := do
  settle ((← input).rest.length + 4)
  let s ← get
  match s.queue with
  | token :: queue => do
    set { s with queue, delivered := s.delivered + 1 }
    pure token
  | [] => throw .endOfTokens

/-- The tokens of a text up to its end or up to a problem. -/
def all : Nat → Layout → Prefixed PlacedToken
  | 0, _ => ⟨[], some .endOfTokens⟩
  | steps + 1, s =>
    match next s with
    | .error problem => ⟨[], some problem⟩
    | .ok (token, s) =>
      if token.token = .streamEnd then ⟨[token], none⟩
      else
        let rest := all steps s
        { rest with items := token :: rest.items }

end Scanning

/-- The tokens of a text. -/
def PlacedToken.ofText (text : String) : Prefixed PlacedToken :=
  let input := Input.ofText text
  Scanning.all (8 * input.rest.length + 8) { input }

end Laminate.Yaml
