import Laminate.Yaml.Event.Basic
import Laminate.Yaml.Token.Lexer

/-!
# From tokens to events

What may follow is a stack of expectations. An expectation looks at one or two tokens, takes some
of them, adds at most one event, and leaves the expectations that replace it; this is all of the
grammar of a document. Around it stand the marks and the directives between documents.

Every expectation takes a token, or replaces itself by one that does, so a number of steps that
grows with the number of tokens suffices.
-/

namespace Laminate.Yaml

/-- The state of a reader of events. -/
structure Grammar where
  tokens : Prefixed PlacedToken
  /-- The anchors of the document, the last one first. -/
  anchors : List (String × Nat) := []
  /-- The number of the next anchor. -/
  nextAnchor : Nat := 1
  /-- The handle that the last directive before the document declares. -/
  declared : Option String := none
  /-- The events so far, the last one first. -/
  events : List PlacedEvent := []

/-- A computation on the state of a reader of events. -/
abbrev Recognizing := StateT Grammar (Except Problem)

/-- What is expected next. -/
inductive Expected
  | node (block bareSequence : Bool)
  | blockKey
  | blockValue
  | blockEntry
  /-- An entry of a sequence that is not indented deeper than the mapping around it. -/
  | bareEntry
  | flowEntry (first : Bool)
  | flowKey (first : Bool)
  | flowValue
  /-- The value of a key that has no sign of its own and no colon. -/
  | noValue
  | pairKey
  | pairValue
  | pairEnd
deriving DecidableEq, Repr

namespace Recognizing

/-- The next token. -/
def peek : Recognizing PlacedToken := do
  let g ← get
  match g.tokens.items with
  | token :: _ => pure token
  | [] => throw (g.tokens.problem.getD .endOfTokens)

/-- Takes the next token. -/
def drop : Recognizing PUnit :=
  modify fun g => { g with tokens := { g.tokens with items := g.tokens.items.drop 1 } }

/-- Adds an event. -/
def emit (event : Event) (token : PlacedToken) : Recognizing PUnit :=
  modify fun g => { g with events := ⟨event, token.place.line⟩ :: g.events }

/-- Adds the scalar that stands where a node was left out. -/
def emitAbsent : Recognizing PUnit := do
  emit (.scalar none .absent) (← peek)

/-! ## Nodes -/

/-- Gives a number to an anchor. A name that is used again means the later anchor from then on. -/
def anchor (name : String) : Recognizing Nat := do
  let g ← get
  set { g with anchors := (name, g.nextAnchor) :: g.anchors, nextAnchor := g.nextAnchor + 1 }
  pure g.nextAnchor

/-- Whether a handle has to be declared: it stands between two exclamation marks. -/
def isNamedHandle (handle : String) : Bool :=
  let cs := handle.toList
  2 < cs.length && cs.head? == some '!' && cs.getLast? == some '!'

/-- What a tag names. The handle only has to be known. -/
def tag (handle suffix : String) : Recognizing String := do
  if isNamedHandle handle && (← get).declared != some handle then throw .unknownTagHandle
  pure suffix

/-- The anchor before a node, if there is one. -/
def anchor? : Recognizing (Option Nat) := do
  match (← peek).token with
  | .anchor name => do
    drop
    pure (some (← anchor name))
  | _ => pure none

/-- The tag before a node, if there is one. -/
def tag? : Recognizing (Option String) := do
  match (← peek).token with
  | .tag handle suffix => do
    drop
    pure (some (← tag handle suffix))
  | _ => pure none

/-- The anchor and the tag before a node, in either order. -/
def properties : Recognizing (Option Nat × Option String) := do
  match ← anchor? with
  | some id => pure (some id, ← tag?)
  | none => do
    match ← tag? with
    | some suffix => pure (← anchor?, some suffix)
    | none => pure (none, none)

/-- A reference to an anchor of this document. -/
def aliasOf (name : String) : Recognizing PUnit := do
  let token ← peek
  drop
  match (← get).anchors.lookup name with
  | some id => emit (.alias id) token
  | none => throw .unknownAnchor

/-- The beginning of a node, or all of it if it is a scalar. -/
def content (block bareSequence : Bool) : Recognizing (List Expected) := do
  let (anchor, tag) ← properties
  let token ← peek
  match token.token with
  | .scalar style text => do
    drop
    emit (.scalar anchor ⟨text, style, tag⟩) token
    pure []
  | .flowSequenceStart => do
    drop
    emit (.sequenceStart anchor) token
    pure [.flowEntry true]
  | .flowMappingStart => do
    drop
    emit (.mappingStart anchor) token
    pure [.flowKey true]
  | found =>
    if found = .blockEntry ∧ bareSequence then do
      emit (.sequenceStart anchor) token
      pure [.bareEntry]
    else if found = .blockSequenceStart ∧ block then do
      drop
      emit (.sequenceStart anchor) token
      pure [.blockEntry]
    else if found = .blockMappingStart ∧ block then do
      drop
      emit (.mappingStart anchor) token
      pure [.blockKey]
    else if anchor.isSome || tag.isSome then do
      emit (.scalar anchor (.bare tag)) token
      pure []
    else throw .unexpectedToken

/-- A node: an alias, or properties and content. -/
def node (block bareSequence : Bool) : Recognizing (List Expected) := do
  match (← peek).token with
  | .alias name => do
    aliasOf name
    pure []
  | _ => content block bareSequence

/-- A node that may be left out before certain tokens. -/
def optionalNode (absentBefore : List Token) (block bareSequence : Bool) (next : Expected) :
    Recognizing (List Expected) := do
  if (← peek).token ∈ absentBefore then
    emitAbsent
    pure [next]
  else pure [.node block bareSequence, next]

/-! ## Block collections -/

/-- The tokens before which a key or a value of a block mapping may be left out. -/
def blockGap : List Token := [.key, .value, .blockEnd]

/-- A key of a block mapping, or its end. -/
def blockKey : Recognizing (List Expected) := do
  let token ← peek
  match token.token with
  | .key => do
    drop
    optionalNode blockGap true true .blockValue
  | .value => do
    emitAbsent
    pure [.blockValue]
  | .blockEnd => do
    drop
    emit .mappingEnd token
    pure []
  | _ => throw .unexpectedToken

/-- A value of a block mapping. -/
def blockValue : Recognizing (List Expected) := do
  match (← peek).token with
  | .value => do
    drop
    optionalNode blockGap true true .blockKey
  | _ => do
    emitAbsent
    pure [.blockKey]

/-- An entry of a block sequence, or its end. -/
def blockEntry : Recognizing (List Expected) := do
  let token ← peek
  match token.token with
  | .blockEntry => do
    drop
    optionalNode [.blockEntry, .blockEnd] true false .blockEntry
  | .blockEnd => do
    drop
    emit .sequenceEnd token
    pure []
  | _ => throw .unexpectedToken

/-- An entry of a sequence without indentation of its own, or its end. -/
def bareEntry : Recognizing (List Expected) := do
  let token ← peek
  match token.token with
  | .blockEntry => do
    drop
    optionalNode (.blockEntry :: blockGap) true false .bareEntry
  | _ => do
    emit .sequenceEnd token
    pure []

/-! ## Flow collections -/

/-- Takes the comma before all entries but the first. -/
def comma (first : Bool) : Recognizing PUnit := do
  if !first then
    if (← peek).token = .flowEntry then drop else throw .unexpectedToken

/-- An entry of a flow sequence, or its end. A comma may stand before the end. -/
def flowEntry (first : Bool) : Recognizing (List Expected) := do
  if (← peek).token ≠ .flowSequenceEnd then comma first
  let token ← peek
  match token.token with
  | .flowSequenceEnd => do
    drop
    emit .sequenceEnd token
    pure []
  | .key => do
    drop
    emit (.mappingStart none) token
    pure [.pairKey]
  | _ => pure [.node false false, .flowEntry false]

/-- The key of a single pair in a flow sequence. A key that is left out takes the token behind it
along. -/
def pairKey : Recognizing (List Expected) := do
  if (← peek).token ∈ [Token.value, .flowEntry, .flowSequenceEnd] then
    emitAbsent
    drop
    pure [.pairValue]
  else pure [.node false false, .pairValue]

/-- The value of a single pair in a flow sequence. -/
def pairValue : Recognizing (List Expected) := do
  match (← peek).token with
  | .value => do
    drop
    optionalNode [.flowEntry, .flowSequenceEnd] false false .pairEnd
  | _ => do
    emitAbsent
    pure [.pairEnd]

/-- The end of a single pair in a flow sequence. -/
def pairEnd : Recognizing (List Expected) := do
  emit .mappingEnd (← peek)
  pure [.flowEntry false]

/-- A key of a flow mapping, or its end. The end counts as standing at the comma before it. -/
def flowKey (first : Bool) : Recognizing (List Expected) := do
  let before ← peek
  if before.token ≠ .flowMappingEnd then comma first
  match (← peek).token with
  | .flowMappingEnd => do
    drop
    emit .mappingEnd before
    pure []
  | .key => do
    drop
    optionalNode [.value, .flowEntry, .flowMappingEnd] false false .flowValue
  | .value => do
    emitAbsent
    pure [.flowValue]
  | _ => pure [.node false false, .noValue]

/-- A value of a flow mapping. -/
def flowValue : Recognizing (List Expected) := do
  match (← peek).token with
  | .value => do
    drop
    optionalNode [.flowEntry, .flowMappingEnd] false false (.flowKey false)
  | _ => do
    emitAbsent
    pure [.flowKey false]

/-- The value of a key that stands alone in a flow mapping. -/
def noValue : Recognizing (List Expected) := do
  emitAbsent
  pure [.flowKey false]

/-- Meets an expectation, and says what is expected in its place. -/
def meet : Expected → Recognizing (List Expected)
  | .node block bareSequence => node block bareSequence
  | .blockKey => blockKey
  | .blockValue => blockValue
  | .blockEntry => blockEntry
  | .bareEntry => bareEntry
  | .flowEntry first => flowEntry first
  | .flowKey first => flowKey first
  | .flowValue => flowValue
  | .noValue => noValue
  | .pairKey => pairKey
  | .pairValue => pairValue
  | .pairEnd => pairEnd

/-- Meets expectations until there are none. -/
def meetAll : Nat → List Expected → Recognizing PUnit
  | _, [] => pure ⟨⟩
  | 0, _ => throw .nestedTooDeep
  | steps + 1, expected :: rest => do
    meetAll steps ((← meet expected) ++ rest)

/-- The number of steps that suffices for the tokens that are left. -/
def steps : Recognizing Nat := do
  pure (8 * (← get).tokens.items.length + 8)

/-! ## Documents -/

/-- Skips the marks of ends of documents. -/
def skipEnds : Recognizing PUnit :=
  modify fun g =>
    let items := g.tokens.items.dropWhile fun t => t.token = .documentEnd
    { g with tokens := { g.tokens with items } }

/-- Reads directives. There is one version at most, and each directive makes void what the one
before it declared. -/
def directives : Nat → Bool → Recognizing PUnit
  | 0, _ => pure ⟨⟩
  | steps + 1, versionSeen => do
    match (← peek).token with
    | .versionDirective => do
      if versionSeen then throw .repeatedDirective
      drop
      modify fun g => { g with declared := none }
      directives steps true
    | .tagDirective handle _ => do
      drop
      modify fun g => { g with declared := some handle }
      directives steps versionSeen
    | _ => pure ⟨⟩

/-- Whether a token is a directive. -/
def isDirective : Token → Bool
  | .versionDirective => true
  | .tagDirective _ _ => true
  | _ => false

/-- Whether a token right after the start of a document means that the document is empty. -/
def endsDocument (token : Token) : Bool :=
  isDirective token || token ∈ [Token.documentStart, .documentEnd, .streamEnd]

/-- Reads the directives and the mark at the start of a document. -/
def explicitStart : Recognizing PUnit := do
  directives (← steps) false
  let token ← peek
  if token.token ≠ .documentStart then throw .unexpectedToken
  drop
  emit .documentStart token

/-- Reads the root of a document, which may be left out after the mark of its start. -/
def root (marked : Bool) : Recognizing PUnit := do
  if marked && endsDocument (← peek).token then emitAbsent
  else meetAll (← steps) [.node true false]

/-- Reads the end of a document, and says whether its end was marked. Directives of the next
document need the mark. -/
def documentEnd : Recognizing Bool := do
  let token ← peek
  let marked := token.token = .documentEnd
  if marked then drop
  modify fun g => { g with declared := none }
  if !marked && isDirective token.token then throw .unexpectedToken
  emit .documentEnd token
  pure marked

/-- Reads a document, and says whether its end was marked. At the end of the text there is no
document. A document may begin without a mark if `unmarked` says so. -/
def document (unmarked : Bool) : Recognizing (Option Bool) := do
  skipEnds
  let token ← peek
  if token.token = .streamEnd then pure none
  else do
    modify fun g => { g with anchors := [] }
    let marked := !unmarked || token.token = .documentStart || isDirective token.token
    if marked then explicitStart else emit .documentStart token
    root marked
    pure (some (← documentEnd))

/-- Reads documents up to the end of the text. -/
def documents : Nat → Bool → Recognizing PUnit
  | 0, _ => throw .endOfTokens
  | steps + 1, unmarked => do
    match ← document unmarked with
    | some unmarked => documents steps unmarked
    | none => pure ⟨⟩

/-- The events that a computation reads from tokens. -/
def events {α : Type} (recognizing : Recognizing α) (tokens : Prefixed PlacedToken) :
    Except Problem (List PlacedEvent) := do
  let (_, g) ← recognizing { tokens }
  pure g.events.reverse

end Recognizing

namespace PlacedEvent

/-- The events of the first document of a text, if there is one. What follows it is not read. -/
def ofFirstDocument (text : String) : Except Problem (List PlacedEvent) :=
  Recognizing.events (Recognizing.document true) (PlacedToken.ofText text)

/-- The events of all documents of a text. -/
def ofDocuments (text : String) : Except Problem (List PlacedEvent) :=
  let tokens := PlacedToken.ofText text
  Recognizing.events (Recognizing.documents (tokens.items.length + 1) true) tokens

end PlacedEvent

end Laminate.Yaml
